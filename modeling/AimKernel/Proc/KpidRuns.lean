import Mathlib.Data.Int.Interval
import AimKernel.Proc.Kpid

/-!
# AimKernel.Proc.KpidRuns

Runs of `proc_new` and `proc_destroy`.

In every run, with or without room, the bitmap marks the numbers that are in use, and no number but
zero is in use twice (`Inv`). As long as processes are created only while there are fewer than
`MAX_PROCESSES`, each gets the least number that is free, and nobody gets zero; the process after
that is the first to get it, whatever the run has been.
-/

namespace AimKernel.Kpid

open Libbitmap

/-! ### Numbers -/

section Numbers

variable {G : Globals} {s : Procs}

variable {kpid : Int} {block i ns page : Nat} {proc : Nat × Proc} {s' : Procs}
  {Admitted : Procs → Call → Prop}

theorem Globals.maxProcesses_lt (G : Globals) : G.maxProcesses < 2 ^ 31 := by
  have hkernel := G.kernel
  have hfits := G.fits
  unfold kernBase at hkernel
  unfold bitsToLongs at hfits
  omega

/-- The position of a number. For zero it is none of the bitmap's. -/
theorem position_iff (G : Globals) (hlo : 0 ≤ kpid) (hhi : kpid ≤ G.maxProcesses)
    (hi : i < G.maxProcesses) :
    i = (BitVec.ofInt 32 kpid - 1#32).toNat ↔ (i : Int) + 1 = kpid := by
  have hmax := G.maxProcesses_lt
  obtain ⟨r, rfl⟩ := Int.eq_ofNat_of_zero_le hlo
  rw [BitVec.ofInt_natCast, BitVec.toNat_sub, BitVec.toNat_ofNat, BitVec.toNat_ofNat]
  omega

theorem kpidRecycle_bitAt (G : Globals) (mem : Memory) (hlo : 0 ≤ kpid)
    (hhi : kpid ≤ G.maxProcesses) (hi : i < G.maxProcesses) :
    bitAt (kpidRecycle G kpid mem) G.bitmap i = true ↔
      (i : Int) + 1 ≠ kpid ∧ bitAt mem G.bitmap i = true := by
  have hmax := G.maxProcesses_lt
  rw [kpidRecycle, bitAt_atomicClearBit _ _ _ (by omega), Bool.and_eq_true, Bool.not_eq_true',
    decide_eq_false_iff_not, position_iff G hlo hhi hi]

/-- **`kpid_new`**: the answer of the search, and its bit set. -/
theorem kpidNew_spec (G : Globals) (mem : Memory) :
    ∃ r : Nat, (kpidNew G mem).1 = r ∧ r ≤ G.maxProcesses ∧
      FirstClear (bitAt mem G.bitmap) 0 G.maxProcesses r ∧
      ∀ i < G.maxProcesses, bitAt (kpidNew G mem).2 G.bitmap i = true ↔
        (i : Int) + 1 = r ∨ bitAt mem G.bitmap i = true := by
  have hmax := G.maxProcesses_lt
  have hfirst := bitmapFindFirstZeroBit_spec mem G.bitmap G.maxProcesses
  set r := bitmapFindFirstZeroBit mem G.bitmap G.maxProcesses with hr
  have hle : r ≤ G.maxProcesses := by
    rcases hfirst with ⟨-, hzero⟩ | ⟨i, -, hi, -, -, hpos⟩
    · omega
    · omega
  have hint : (kpidNew G mem).1 = (r : Int) := by
    have hnat : (BitVec.ofNat 32 r).toNat = r := by
      rw [BitVec.toNat_ofNat]
      omega
    rw [kpidNew, ← hr, BitVec.toInt_eq_toNat_of_lt (by omega), hnat]
  refine ⟨r, hint, hle, hfirst, fun i hi => ?_⟩
  have hmem : (kpidNew G mem).2 = atomicSetBit (BitVec.ofInt 32 (kpidNew G mem).1) G.bitmap mem := rfl
  rw [hmem, hint, bitAt_atomicSetBit _ _ _ (by omega), Bool.or_eq_true, decide_eq_true_iff,
    position_iff G (Int.natCast_nonneg r) (Int.ofNat_le.mpr hle) hi]

/-! ### The invariant -/

/-- The bitmap marks the numbers in use. Only the number zero can have been given out twice. -/
structure Inv (G : Globals) (s : Procs) : Prop where
  bits : ∀ i < G.maxProcesses, bitAt s.mem G.bitmap i = true ↔ (i : Int) + 1 ∈ s.kpids
  range : ∀ k ∈ s.kpids, 0 ≤ k ∧ k ≤ G.maxProcesses
  distinct : (s.kpids.filter fun k => decide (k ≠ 0)).Nodup

theorem bitAt_bitmap (G : Globals) (mem : Memory) (hi : i < G.maxProcesses) :
    i / 32 < bitsToLongs G.maxProcesses ∧
      bitAt mem G.bitmap i = (mem (G.bitmap + 4 * (i / 32))).getLsbD (i % 32) := by
  have hfits := G.fits
  have hword : i / 32 < bitsToLongs G.maxProcesses := by
    unfold bitsToLongs
    omega
  have haddr : u32 (G.bitmap + 4 * (i / 32)) = G.bitmap + 4 * (i / 32) := by
    unfold u32
    omega
  exact ⟨hword, by rw [bitAt, haddr]⟩

theorem Inv.boot (hmem : ∀ i < bitsToLongs G.maxProcesses, s.mem (G.bitmap + 4 * i) = 0#32)
    (hprocs : s.procs = []) : Inv G s := by
  have hkpids : s.kpids = [] := by rw [Procs.kpids, hprocs, List.map_nil]
  refine ⟨fun i hi => ?_, ?_, ?_⟩
  · obtain ⟨hword, hbit⟩ := bitAt_bitmap G s.mem hi
    rw [hbit, hmem _ hword, hkpids]
    simp
  · simp [hkpids]
  · simp [hkpids]

theorem allocKstack_eq_zero (h : page ≠ addrError → page < lowramTop) :
    allocKstack page = 0 ↔ page = addrError := by
  unfold allocKstack
  by_cases hpage : page = addrError
  · simp [hpage]
  · have hlow := h hpage
    have hkva : pa2kva page = page + kernBase := pa2kva_eq (Nat.lt_trans hlow (by decide))
    have hpos : 0 < kernBase := by decide
    rw [if_neg hpage, hkva]
    constructor
    · intro hzero
      omega
    · exact fun heq => absurd heq hpage

/-- `proc_new` without memory changes nothing. -/
theorem procNew_refused (h : block = 0 ∨ page = addrError) :
    procNew G ns block page s = (0, s) := by
  rw [procNew]
  by_cases hblock : block = 0
  · rw [if_pos hblock]
  · have hkstack : allocKstack page = 0 := if_pos (h.resolve_left hblock)
    rw [if_neg hblock]
    rw [if_pos hkstack, List.erase_cons_head]

/-- **`proc_new`** with memory: a process with the number that `kpid_new` gives. -/
theorem procNew_created (ns : Nat) (hblock : block ≠ 0) (hpage : page ≠ addrError)
    (hsup : Supplied G s block page) : ∃ p s', procNew G ns block page s = (block, s') ∧
      p.kpid = (kpidNew G s.mem).1 ∧ s'.procs = (block, p) :: s.procs ∧
      s'.mem = (kpidNew G s.mem).2 ∧ s'.kpids = p.kpid :: s.kpids := by
  have hkstack : allocKstack page ≠ 0 :=
    mt (allocKstack_eq_zero fun hne => (hsup.page_fresh hne).2).mp hpage
  rw [procNew, if_neg hblock]
  dsimp only
  rw [if_neg hkstack]
  exact ⟨_, _, rfl, rfl, rfl, rfl, rfl⟩

theorem procNew_cases (ns : Nat) (hsup : Supplied G s block page) :
    (block = 0 ∨ page = addrError) ∧ procNew G ns block page s = (0, s) ∨
      ¬ (block = 0 ∨ page = addrError) ∧ ∃ p s', procNew G ns block page s = (block, s') ∧
        p.kpid = (kpidNew G s.mem).1 ∧ s'.procs = (block, p) :: s.procs ∧
        s'.mem = (kpidNew G s.mem).2 ∧ s'.kpids = p.kpid :: s.kpids := by
  by_cases hnone : block = 0 ∨ page = addrError
  · exact .inl ⟨hnone, procNew_refused hnone⟩
  · obtain ⟨hblock, hpage⟩ := not_or.mp hnone
    exact .inr ⟨hnone, procNew_created ns hblock hpage hsup⟩

theorem Inv.procNew (h : Inv G s) (hsup : Supplied G s block page) :
    Inv G (procNew G ns block page s).2 := by
  rcases procNew_cases ns hsup with ⟨-, hrun⟩ | ⟨-, p, s', hrun, hkpid, -, hmem, hkpids⟩
  · rw [hrun]
    exact h
  · obtain ⟨r, hr, hle, hfirst, hbits⟩ := kpidNew_spec G s.mem
    rw [hrun]
    rw [hkpid, hr] at hkpids
    refine ⟨fun i hi => ?_, fun k hk => ?_, ?_⟩
    · rw [hmem, hbits i hi, hkpids, List.mem_cons, h.bits i hi]
    · rw [hkpids] at hk
      cases List.mem_cons.mp hk with
      | inl heq => omega
      | inr hmem => exact h.range k hmem
    · -- a number other than zero was clear in the bitmap
      rw [hkpids, List.filter_cons]
      split
      · rename_i hne
        refine List.nodup_cons.mpr ⟨fun hin => ?_, h.distinct⟩
        rcases hfirst with ⟨-, rfl⟩ | ⟨i, -, hi, hclear, -, rfl⟩
        · simp at hne
        · have hlive : ((i : Int) + 1) ∈ s.kpids := by simpa using (List.mem_filter.mp hin).1
          rw [(h.bits i hi).mpr hlive] at hclear
          cases hclear
      · exact h.distinct

theorem kpids_destroy (hproc : proc ∈ s.procs) :
    s.kpids.Perm (proc.2.kpid :: (procDestroy G proc s).kpids) :=
  (List.perm_cons_erase hproc).map fun e : Nat × Proc => e.2.kpid

theorem Inv.procDestroy (h : Inv G s) (hproc : proc ∈ s.procs) :
    Inv G (procDestroy G proc s) := by
  have hperm := kpids_destroy (G := G) hproc
  have hin : proc.2.kpid ∈ s.kpids := hperm.mem_iff.mpr List.mem_cons_self
  obtain ⟨hlo, hhi⟩ := h.range _ hin
  have hnodup := (hperm.filter fun k => decide (k ≠ 0)).nodup_iff.mp h.distinct
  rw [List.filter_cons] at hnodup
  refine ⟨fun i hi => ?_, fun k hk => ?_, ?_⟩
  · have hmem : (Kpid.procDestroy G proc s).mem = kpidRecycle G proc.2.kpid s.mem := rfl
    rw [hmem, kpidRecycle_bitAt G s.mem hlo hhi hi, h.bits i hi, hperm.mem_iff, List.mem_cons]
    constructor
    · rintro ⟨hne, heq | hrest⟩
      · exact absurd heq hne
      · exact hrest
    · intro hrest
      refine ⟨fun heq => ?_, .inr hrest⟩
      -- the number was not given out twice
      have hne : proc.2.kpid ≠ 0 := by omega
      rw [if_pos (decide_eq_true hne)] at hnodup
      have hnot := (List.nodup_cons.mp hnodup).1
      exact hnot (List.mem_filter.mpr ⟨heq ▸ hrest, decide_eq_true hne⟩)
  · exact h.range k (hperm.mem_iff.mpr (List.mem_cons_of_mem _ hk))
  · split at hnodup
    · exact (List.nodup_cons.mp hnodup).2
    · exact hnodup

theorem map_sameProc {α : Type} {f : Nat × Proc → α} {l l' : List (Nat × Proc)}
    (h : List.Forall₂ SameProc l l') (hf : ∀ {e e'}, SameProc e e' → f e' = f e) :
    l'.map f = l.map f := by
  induction h with
  | nil => rfl
  | cons hhead _ ih => rw [List.map_cons, List.map_cons, ih, hf hhead]

theorem kpids_sameProc (h : List.Forall₂ SameProc s.procs s'.procs) :
    s'.kpids = s.kpids :=
  map_sameProc h fun hsame => hsame.kpid

theorem Inv.other (h : Inv G s)
    (hmem : ∀ i < bitsToLongs G.maxProcesses, s'.mem (G.bitmap + 4 * i) = s.mem (G.bitmap + 4 * i))
    (hprocs : List.Forall₂ SameProc s.procs s'.procs) : Inv G s' := by
  have hkpids := kpids_sameProc hprocs
  refine ⟨fun i hi => ?_, hkpids ▸ h.range, hkpids ▸ h.distinct⟩
  obtain ⟨hword, hbit⟩ := bitAt_bitmap G s.mem hi
  obtain ⟨-, hbit'⟩ := bitAt_bitmap G s'.mem hi
  rw [hbit', hmem _ hword, ← hbit, hkpids, h.bits i hi]

theorem Inv.step (h : Inv G s) {c : Call} (hstep : Step G s c s') : Inv G s' := by
  cases hstep with
  | procNew hsup => exact h.procNew hsup
  | procDestroy hproc => exact h.procDestroy hproc
  | other hmem hprocs => exact h.other hmem hprocs

theorem Reach.mono (h : Reach G Admitted s) :
    Reach G (fun _ _ => True) s := by
  induction h with
  | boot hmem hprocs => exact .boot hmem hprocs
  | step _ _ hstep ih => exact .step ih trivial hstep

/-- **Every run keeps the invariant.** -/
theorem Reach.inv (h : Reach G Admitted s) : Inv G s := by
  induction h with
  | boot hmem hprocs => exact .boot hmem hprocs
  | step _ _ hstep ih => exact ih.step hstep

/-! ### Runs with room -/

theorem kpids_length (s : Procs) : s.kpids.length = s.procs.length := List.length_map _

/-- With fewer processes than numbers, a number is left. -/
theorem Inv.exists_clear (h : Inv G s) (hroom : s.procs.length < G.maxProcesses) :
    ∃ i < G.maxProcesses, bitAt s.mem G.bitmap i = false := by
  by_contra hnone
  have hsub : (List.range G.maxProcesses).map (fun i : Nat => (i : Int) + 1) ⊆ s.kpids := by
    intro k hk
    obtain ⟨i, hi, rfl⟩ := List.mem_map.mp hk
    have hlt := List.mem_range.mp hi
    rw [← h.bits i hlt]
    by_contra hclear
    exact hnone ⟨i, hlt, Bool.eq_false_iff.mpr hclear⟩
  have hnodup : ((List.range G.maxProcesses).map (fun i : Nat => (i : Int) + 1)).Nodup :=
    List.nodup_range.map fun a b hab => Int.ofNat.inj (add_right_cancel hab)
  have hlen := (hnodup.subperm hsub).length_le
  rw [List.length_map, List.length_range, kpids_length] at hlen
  omega

theorem Inv.kpidNew_isLeast (h : Inv G s) (hroom : s.procs.length < G.maxProcesses) :
    IsLeast {k : Int | 1 ≤ k ∧ k ≤ G.maxProcesses ∧ k ∉ s.kpids} (kpidNew G s.mem).1 := by
  obtain ⟨r, hr, -, hfirst, -⟩ := kpidNew_spec G s.mem
  obtain ⟨⟨hpos, hle, hclear⟩, hleast⟩ := hfirst.isLeast (h.exists_clear hroom)
  have hfree : ∀ k : Nat, 1 ≤ k → k ≤ G.maxProcesses →
      (bitAt s.mem G.bitmap (k - 1) = false ↔ (k : Int) ∉ s.kpids) := by
    intro k hk hkle
    have hbits := h.bits (k - 1) (by omega)
    have hcast : ((k - 1 : Nat) : Int) + 1 = k := by omega
    rw [hcast] at hbits
    rw [← hbits, Bool.not_eq_true]
  rw [hr]
  refine ⟨⟨by omega, by omega, (hfree r hpos hle).mp hclear⟩, ?_⟩
  rintro k ⟨hk, hkle, hkfree⟩
  obtain ⟨n, rfl⟩ := Int.eq_ofNat_of_zero_le (by omega : 0 ≤ k)
  have hn : 1 ≤ n := by omega
  have hnle : n ≤ G.maxProcesses := by omega
  exact Int.ofNat_le.mpr (hleast ⟨hn, hnle, (hfree n hn hnle).mpr hkfree⟩)

/-- **With room, nobody gets the number zero.** -/
theorem Reach.nonzero (h : Reach G (Roomy G) s) : 0 ∉ s.kpids := by
  induction h with
  | boot hmem hprocs => simp [Procs.kpids, hprocs]
  | @step s s' c hreach hadm hstep ih =>
    cases hstep with
    | @procNew ns block page hsup =>
      rcases procNew_cases ns hsup with ⟨-, hrun⟩ | ⟨hgot, p, s', hrun, hkpid, -, -, hkpids⟩
      · rw [hrun]
        exact ih
      · obtain ⟨⟨hpos, -, -⟩, -⟩ := hreach.inv.kpidNew_isLeast (hadm.resolve_right hgot)
        rw [hrun, hkpids, List.mem_cons, not_or, hkpid]
        exact ⟨by omega, ih⟩
    | procDestroy hproc =>
      exact fun hin => ih ((kpids_destroy hproc).mem_iff.mpr (List.mem_cons_of_mem _ hin))
    | other hmem hprocs =>
      rw [kpids_sameProc hprocs]
      exact ih

theorem Reach.nodup (h : Reach G (Roomy G) s) : s.kpids.Nodup := by
  have hall : s.kpids.filter (fun k => decide (k ≠ 0)) = s.kpids := by
    rw [List.filter_eq_self]
    intro k hk
    exact decide_eq_true fun hzero => h.nonzero (hzero ▸ hk)
  rw [← hall]
  exact h.inv.distinct

end Numbers

/-- **Process numbers.** In every run in which processes are created only while there is room,
the processes have different numbers other than zero, the bitmap marks the numbers in use, and the
next process gets the least number that is not in use. -/
theorem kpids_unique_and_least {G : Globals} {s : Procs} (h : Reach G (Roomy G) s) :
    s.kpids.Nodup ∧ 0 ∉ s.kpids ∧
      (∀ i < G.maxProcesses, bitAt s.mem G.bitmap i = true ↔ (i : Int) + 1 ∈ s.kpids) ∧
      ∀ ns block page, Supplied G s block page → block ≠ 0 → page ≠ addrError →
        s.procs.length < G.maxProcesses →
        ∃ p, (procNew G ns block page s).1 = block ∧
          (procNew G ns block page s).2.procs = (block, p) :: s.procs ∧
          IsLeast {k : Int | 1 ≤ k ∧ k ≤ G.maxProcesses ∧ k ∉ s.kpids} p.kpid := by
  refine ⟨h.nodup, h.nonzero, h.inv.bits, ?_⟩
  intro ns block page hsup hblock hpage hroom
  obtain ⟨p, s', hrun, hkpid, hprocs, -, -⟩ := procNew_created ns hblock hpage hsup
  refine ⟨p, by rw [hrun], by rw [hrun, hprocs], ?_⟩
  rw [hkpid]
  exact h.inv.kpidNew_isLeast hroom

/-- A kernel for two processes. -/
def pairKernel : Globals where
  maxProcesses := 2
  bitmap := 0x80100004
  idleproc cpu := 0x80101000 + 0x208 * cpu
  kernel := by decide
  fits := by decide

/-- Before the first process. -/
def booted : Procs := ⟨fun _ => 0#32, [], [], []⟩

theorem booted_reach (Admitted : Procs → Call → Prop) : Reach pairKernel Admitted booted :=
  .boot (fun _ _ => rfl) rfl

theorem pair_supplied {s : Procs} {block page : Nat} (hblock : block ∉ s.blocks)
    (hidle : block % 0x208 ≠ 0x80101000 % 0x208) (hpage : page ∉ s.pages) (hlow : page < lowramTop) :
    Supplied pairKernel s block page where
  block_fresh _ := by
    refine ⟨hblock, fun cpu heq => hidle ?_⟩
    have hsum : block = 0x80101000 + 0x208 * cpu := heq
    omega
  page_fresh _ := ⟨hpage, hlow⟩

/-- With all numbers taken. -/
def pairTaken : Procs :=
  (procNew pairKernel 0 0x80301000 0x401000 (procNew pairKernel 0 0x80300000 0x400000 booted).2).2

theorem pairTaken_reach : Reach pairKernel (Roomy pairKernel) pairTaken := by
  refine .step (c := .procNew 0 0x80301000 0x401000) (.step (c := .procNew 0 0x80300000 0x400000)
    (booted_reach _) (.inl (by decide)) (.procNew ?_)) (.inl (by decide +kernel)) (.procNew ?_)
  · exact pair_supplied (by decide) (by decide) (by decide) (by decide)
  · exact pair_supplied (by decide +kernel) (by decide) (by decide +kernel) (by decide)

theorem pairTaken_supplied : Supplied pairKernel pairTaken 0x80302000 0x402000 :=
  pair_supplied (by decide +kernel) (by decide) (by decide +kernel) (by decide)

/-- The first of the two processes, with its address. -/
def firstProc : Nat × Proc :=
  (0x80300000, ⟨0x80400000, pageSize, 1, 1, 1, .embryo, -1, 0, 0⟩)

/-- After the first process has been destroyed, while the second one is there. -/
def firstGone : Procs := procDestroy pairKernel firstProc pairTaken

theorem firstGone_reach : Reach pairKernel (Roomy pairKernel) firstGone :=
  .step (c := .procDestroy firstProc) pairTaken_reach trivial (.procDestroy (by decide +kernel))

/-- The next process gets the number one again. -/
theorem kpids_unique_and_least_recycled : firstGone.kpids = [2] ∧
    ∃ p, (procNew pairKernel 0 0x80302000 0x402000 firstGone).1 = 0x80302000 ∧
      (procNew pairKernel 0 0x80302000 0x402000 firstGone).2.procs =
        (0x80302000, p) :: firstGone.procs ∧
      IsLeast {k : Int | 1 ≤ k ∧ k ≤ 2 ∧ k ∉ firstGone.kpids} p.kpid :=
  ⟨by decide +kernel, (kpids_unique_and_least firstGone_reach).2.2.2 0 _ _
    (pair_supplied (by decide +kernel) (by decide) (by decide +kernel) (by decide)) (by decide)
    (by decide) (by decide +kernel)⟩

/-! ### Running out of numbers -/

/-- The assertion of `schedule`, for a process and the idle process of the CPU. -/
def scheduleAsserts (oldproc idleproc : Nat) (kpid : Int) : Bool :=
  !((kpid == 0) ^^ (oldproc == idleproc))

/-- The assertion holds for whatever is the current process: the idle process, or another one. -/
def Asserts (G : Globals) (s : Procs) : Prop :=
  ∀ cpu, scheduleAsserts (G.idleproc cpu) (G.idleproc cpu) 0 = true ∧
    ∀ e ∈ s.procs, scheduleAsserts e.1 (G.idleproc cpu) e.2.kpid = true

/-- All numbers are taken. -/
def Full (G : Globals) (s : Procs) : Prop := ∀ k : Int, 1 ≤ k → k ≤ G.maxProcesses → k ∈ s.kpids

/-- What `proc_new` is to do then. -/
structure Refuses (G : Globals) (s : Procs) (out : Nat × Procs) : Prop where
  null : out.1 = 0
  blocks : out.2.blocks = s.blocks
  pages : out.2.pages = s.pages
  mem : ∀ a, (∀ i < bitsToLongs G.maxProcesses, a ≠ G.bitmap + 4 * i) → out.2.mem a = s.mem a
  nonzero : out.1 ≠ 0 → ∀ p, (out.1, p) ∈ out.2.procs → p.kpid ≠ 0

section Exhaustion

variable {G : Globals} {s : Procs}

variable {Admitted : Procs → Call → Prop} {block ns page : Nat}

/-- **Without a number left, the next process gets zero.** -/
theorem Inv.kpidNew_full (h : Inv G s) (hfull : Full G s) : (kpidNew G s.mem).1 = 0 := by
  obtain ⟨r, hr, -, hfirst, -⟩ := kpidNew_spec G s.mem
  rw [hr]
  rcases hfirst with ⟨-, hzero⟩ | ⟨i, -, hi, hclear, -, -⟩
  · rw [hzero]
    rfl
  · have hlive : (i : Int) + 1 ∈ s.kpids := hfull _ (by omega) (by omega)
    rw [(h.bits i hi).mpr hlive] at hclear
    cases hclear

/-- As many processes as numbers take all of them. -/
theorem Reach.full (h : Reach G (Roomy G) s) (hlen : G.maxProcesses ≤ s.procs.length) : Full G s := by
  have hsub : s.kpids.toFinset ⊆ Finset.Icc (1 : Int) G.maxProcesses := by
    intro k hk
    have hin := List.mem_toFinset.mp hk
    have hne : k ≠ 0 := fun hzero => h.nonzero (hzero ▸ hin)
    have hrange := h.inv.range k hin
    exact Finset.mem_Icc.mpr ⟨by omega, hrange.2⟩
  have hcard : (Finset.Icc (1 : Int) G.maxProcesses).card ≤ s.kpids.toFinset.card := by
    rw [List.toFinset_card_of_nodup h.nodup, kpids_length, Int.card_Icc]
    omega
  have heq := Finset.eq_of_subset_of_card_le hsub hcard
  intro k hlo hhi
  exact List.mem_toFinset.mp (heq ▸ Finset.mem_Icc.mpr ⟨hlo, hhi⟩)

theorem Reach.ne_idle (h : Reach G Admitted s) :
    ∀ a ∈ s.procs.map Prod.fst, ∀ cpu, a ≠ G.idleproc cpu := by
  induction h with
  | boot hmem hprocs => simp [hprocs]
  | @step s s' c hreach hadm hstep ih =>
    cases hstep with
    | @procNew ns block page hsup =>
      rcases procNew_cases ns hsup with ⟨-, hrun⟩ | ⟨hgot, p, s', hrun, -, hprocs, -, -⟩
      · rw [hrun]
        exact ih
      · rw [hrun, hprocs, List.map_cons]
        intro a ha
        cases List.mem_cons.mp ha with
        | inl heq => exact heq ▸ (hsup.block_fresh fun hzero => hgot (.inl hzero)).2
        | inr hin => exact ih a hin
    | procDestroy hproc =>
      intro a ha
      obtain ⟨e, he, rfl⟩ := List.mem_map.mp ha
      exact ih _ (List.mem_map_of_mem (List.mem_of_mem_erase he))
    | @other s' hmem hprocs =>
      have haddrs : s'.procs.map Prod.fst = s.procs.map Prod.fst := map_sameProc hprocs fun h => h.addr
      rw [haddrs]
      exact ih

/-- The assertion is that the process has a number. -/
theorem scheduleAsserts_iff {oldproc idleproc : Nat} (hne : oldproc ≠ idleproc) (kpid : Int) :
    scheduleAsserts oldproc idleproc kpid = true ↔ kpid ≠ 0 := by
  simp [scheduleAsserts, hne]

theorem Reach.asserts_iff (h : Reach G Admitted s) :
    Asserts G s ↔ 0 ∉ s.kpids := by
  constructor
  · intro hasserts hzero
    obtain ⟨e, he, hkpid⟩ := List.mem_map.mp hzero
    have hassert := (hasserts 0).2 e he
    rw [scheduleAsserts_iff (h.ne_idle _ (List.mem_map_of_mem he) 0)] at hassert
    exact hassert hkpid
  · intro hnonzero cpu
    refine ⟨by simp [scheduleAsserts], fun e he => ?_⟩
    rw [scheduleAsserts_iff (h.ne_idle _ (List.mem_map_of_mem he) cpu)]
    exact fun hzero => hnonzero (List.mem_map.mpr ⟨e, he, hzero⟩)

theorem refuses_iff (hsup : Supplied G s block page) :
    Refuses G s (procNew G ns block page s) ↔ block = 0 ∨ page = addrError := by
  rcases procNew_cases ns hsup with ⟨hnone, hrun⟩ | ⟨hgot, p, s', hrun, -⟩
  · rw [hrun]
    exact iff_of_true ⟨rfl, rfl, rfl, fun a _ => rfl, fun hne => absurd rfl hne⟩ hnone
  · rw [hrun]
    exact iff_of_false (fun hrefuses => hgot (.inl hrefuses.null)) hgot

/-- With all numbers taken, a process is created with the number zero or not at all. -/
theorem Inv.procNew_nonzero_iff (h : Inv G s) (hfull : Full G s) (hsup : Supplied G s block page)
    : 0 ∉ (AimKernel.Kpid.procNew G ns block page s).2.kpids ↔
      0 ∉ s.kpids ∧ (block = 0 ∨ page = addrError) := by
  rcases procNew_cases ns hsup with ⟨hnone, hrun⟩ | ⟨hgot, p, s', hrun, hkpid, -, -, hkpids⟩
  · simp only [hrun, hnone, and_true]
  · rw [hrun, hkpids, hkpid, h.kpidNew_full hfull]
    simp [hgot]

/-- After `proc_new`, from a state that was reached with room. -/
theorem Reach.procNew_asserts_iff (h : Reach G (Roomy G) s) (hsup : Supplied G s block page) :
    Asserts G (procNew G ns block page s).2 ↔ Roomy G s (.procNew ns block page) := by
  constructor
  · intro hasserts
    by_contra hroomy
    obtain ⟨hlen, hnone⟩ := not_or.mp hroomy
    have hfull := h.full (Nat.le_of_not_lt hlen)
    have hreach : Reach G (fun _ _ => True) (procNew G ns block page s).2 :=
      .step h.mono trivial (.procNew hsup)
    rw [hreach.asserts_iff, h.inv.procNew_nonzero_iff hfull hsup] at hasserts
    exact hnone hasserts.2
  · intro hroomy
    have hreach : Reach G (Roomy G) (procNew G ns block page s).2 := .step h hroomy (.procNew hsup)
    exact hreach.asserts_iff.mpr hreach.nonzero

end Exhaustion

/-- **Exhaustion.** When all numbers are taken, `proc_new` refuses if and only if it gets no memory,
and otherwise it returns a process with the number zero. In every run in which processes are created
only while there is room the assertion of `schedule` holds in every state, and the next creation
keeps it if and only if there is room for it too. -/
theorem exhaustion_refused_iff {G : Globals} {s : Procs} :
    (Reach G (fun _ _ => True) s → Full G s → ∀ ns block page, Supplied G s block page →
      (Refuses G s (procNew G ns block page s) ↔ block = 0 ∨ page = addrError) ∧
      (0 ∉ (procNew G ns block page s).2.kpids ↔ 0 ∉ s.kpids ∧ (block = 0 ∨ page = addrError))) ∧
    (Reach G (Roomy G) s → Asserts G s ∧ ∀ ns block page, Supplied G s block page →
      (Asserts G (procNew G ns block page s).2 ↔ Roomy G s (.procNew ns block page))) := by
  constructor
  · intro hreach hfull ns block page hsup
    exact ⟨refuses_iff hsup, hreach.inv.procNew_nonzero_iff hfull hsup⟩
  · intro hreach
    exact ⟨hreach.asserts_iff.mpr hreach.nonzero, fun ns block page => hreach.procNew_asserts_iff⟩

/-- Both numbers are taken: the next process is created all the same, and then the assertion
fails. -/
theorem exhaustion_refused_taken :
    ¬ Refuses pairKernel pairTaken (procNew pairKernel 0 0x80302000 0x402000 pairTaken) ∧
      Asserts pairKernel pairTaken ∧
      ¬ Asserts pairKernel (procNew pairKernel 0 0x80302000 0x402000 pairTaken).2 := by
  have hfull : Full pairKernel pairTaken := pairTaken_reach.full (by decide +kernel)
  have hrefused := exhaustion_refused_iff.1 pairTaken_reach.mono hfull 0 _ _ pairTaken_supplied
  have hasserts := exhaustion_refused_iff.2 pairTaken_reach
  refine ⟨fun h => absurd (hrefused.1.mp h) (by decide), hasserts.1, fun h => ?_⟩
  have hroom := (hasserts.2 0 _ _ pairTaken_supplied).mp h
  exact absurd hroom (by rw [Roomy]; decide +kernel)

/-- The third of two processes gets the number of the idle process, and a bit far behind the bitmap
is set: through the uncached addresses it is the word of the lock in front of the bitmap. -/
theorem third_process_gets_zero :
    pairTaken.kpids = [2, 1] ∧
      (procNew pairKernel 0 0x80302000 0x402000 pairTaken).1 = 0x80302000 ∧
      (procNew pairKernel 0 0x80302000 0x402000 pairTaken).2.kpids = [0, 2, 1] ∧
      pairTaken.mem 0xa0100000 = 0#32 ∧
      (procNew pairKernel 0 0x80302000 0x402000 pairTaken).2.mem 0xa0100000 = 0x80000000#32 ∧
      scheduleAsserts 0x80302000 (pairKernel.idleproc 0) 0 = false := by
  decide +kernel

end AimKernel.Kpid
