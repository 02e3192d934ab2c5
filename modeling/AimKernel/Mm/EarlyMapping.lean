import Mathlib.Logic.Relation
import AimKernel.Lib.Regions
import AimKernel.Mm.Types

/-!
# AimKernel.Mm.EarlyMapping

The queue of early mappings (`early_kmmap.c`), which the architecture code installs
when the MMU is switched on.

`queue[0 .. queue_size)` is a list that carries its length bound, so the assertion at
the head of `early_mapping_add` is a field of the state. The configuration constants
are a parameter `Layout`, and `early_mapping_valid`, which every port supplies, is a
parameter `valid`. Pointers and sizes are 32-bit words.

Each of the four `early_mapping_add_…` functions first decides which entry to queue,
if any (`memoryEntry`, `kmmapEntry`, `umemEntry`, `devspaceEntry`), then hands it to
`early_mapping_add` and moves its own bump pointer. What the queue looks like after a
call therefore only depends on that entry (`Call.run_queue`).

`OVERLAP` compares the starts strictly, so two ranges with one start pass the check:
the ranges in the queue are disjoint in every run in which no entry of positive size
is added at the start of a queued one (`early_mappings_disjoint`), and in no other
(`add_of_same_start`).
-/

namespace AimKernel

/-- `type` of `struct early_mapping`. -/
inductive EarlyMappingType
  /-- Linear memory mappings. -/
  | memory
  /-- Entries allocated by `kmmap`. -/
  | kmmap
  /-- Discarded. -/
  | temp
  /-- Explicit `kmmap` entries. -/
  | other
  deriving Repr, DecidableEq

/-- `struct early_mapping`. -/
structure EarlyMapping where
  paddr : Nat
  vaddr : Nat
  size : Nat
  type : EarlyMappingType
  deriving Repr, DecidableEq

/-- The virtual range `[vaddr, vaddr + size)`. -/
def EarlyMapping.range (e : EarlyMapping) : Region := ⟨e.vaddr, e.size⟩

/-- `vaddr + size` does not wrap. -/
def EarlyMapping.NoWrap (e : EarlyMapping) : Prop := e.vaddr + e.size < 2 ^ 32

/-- The addresses `configure` fixes. -/
structure Layout where
  kernBase : Nat
  kmmapBase : Nat
  reservedBase : Nat
  usertop : Nat

/-- `EARLY_MAPPING_QUEUE_LENGTH`. -/
def earlyMappingQueueLength : Nat := 10

/-- `USER_BASE`. -/
def userBase : Nat := 0

/-- `-ENOMEM`. -/
def enomem : Int := -12

/-- `-EINVAL`. -/
def einval : Int := -22

/-- The static variables of `early_kmmap.c`. -/
structure EarlyKmmap where
  queue : List EarlyMapping
  bound : queue.length ≤ earlyMappingQueueLength
  memTop : Nat
  kmmapTop : Nat
  umemTop : Nat

/-- 32-bit subtraction. -/
def sub32 (a b : Nat) : Nat := u32 (a + (2 ^ 32 - u32 b))

/-- `OVERLAP`. -/
def overlap (st1 len1 st2 len2 : Nat) : Bool :=
  (st1 > st2 && st1 < u32 (st2 + len2)) || (st2 > st1 && st2 < u32 (st1 + len1))

namespace EarlyKmmap

/-- The zero-initialised static variables. -/
def boot : EarlyKmmap := ⟨[], Nat.zero_le _, 0, 0, 0⟩

/-- The checks of `early_mapping_add`: the negated error, or `0`. -/
def addCheck (valid : EarlyMapping → Bool) (entry : EarlyMapping) (s : EarlyKmmap) : Int :=
  if s.queue.length = earlyMappingQueueLength then enomem
  else if !valid entry then einval
  else if s.queue.any fun q => overlap entry.vaddr entry.size q.vaddr q.size then einval
  else 0

theorem room_of_addCheck {valid : EarlyMapping → Bool} {entry : EarlyMapping} {s : EarlyKmmap}
    (h : s.addCheck valid entry = 0) :
    (s.queue ++ [entry]).length ≤ earlyMappingQueueLength := by
  have hbound := s.bound
  unfold addCheck enomem at h
  split at h
  · exact absurd h (by decide)
  · rw [List.length_append, List.length_singleton]
    omega

section Calls

variable (L : Layout) (valid : EarlyMapping → Bool)

/-- `early_mapping_clear`. -/
def earlyMappingClear : EarlyKmmap :=
  ⟨[], Nat.zero_le _, L.kernBase, L.kmmapBase, userBase⟩

/-- `early_mapping_add`. -/
def earlyMappingAdd (entry : EarlyMapping) (s : EarlyKmmap) : Int × EarlyKmmap :=
  if h : s.addCheck valid entry = 0 then
    (0, { s with queue := s.queue ++ [entry], bound := room_of_addCheck h })
  else (s.addCheck valid entry, s)

/-- The entry `early_mapping_add_memory` constructs, clamped to what is left below
`KMMAP_BASE`. -/
def memoryEntry (base size : Nat) (s : EarlyKmmap) : Option EarlyMapping :=
  if s.memTop ≥ L.kmmapBase then none
  else some ⟨base, s.memTop, min size (sub32 L.kmmapBase s.memTop), .memory⟩

/-- `early_mapping_add_memory`. -/
def earlyMappingAddMemory (base size : Nat) (s : EarlyKmmap) : Nat × EarlyKmmap :=
  match s.memoryEntry L base size with
  | none => (0, s)
  | some entry =>
    let (ret, t) := s.earlyMappingAdd valid entry
    if ret < 0 then (0, t)
    else (entry.size, { t with memTop := u32 (t.memTop + entry.size) })

/-- The entry `early_mapping_add_kmmap` constructs. -/
def kmmapEntry (base size : Nat) (s : EarlyKmmap) : Option EarlyMapping :=
  if s.kmmapTop ≥ L.reservedBase then none
  else if size > sub32 L.reservedBase s.kmmapTop then none
  else some ⟨base, s.kmmapTop, size, .kmmap⟩

/-- `early_mapping_add_kmmap`; `NULL` is `0`. -/
def earlyMappingAddKmmap (base size : Nat) (s : EarlyKmmap) : Nat × EarlyKmmap :=
  match s.kmmapEntry L base size with
  | none => (0, s)
  | some entry =>
    let (ret, t) := s.earlyMappingAdd valid entry
    if ret < 0 then (0, t)
    else (entry.vaddr, { t with kmmapTop := u32 (t.kmmapTop + entry.size) })

/-- The entry `early_mapping_add_umem` constructs. The pointer is tested against
`USERTOP`, the size against `KERN_BASE`. -/
def umemEntry (base size : Nat) (s : EarlyKmmap) : Option EarlyMapping :=
  if s.umemTop ≥ L.usertop then none
  else some ⟨base, s.umemTop, min size (sub32 L.kernBase s.umemTop), .memory⟩

/-- `early_mapping_add_umem`. -/
def earlyMappingAddUmem (base size : Nat) (s : EarlyKmmap) : Nat × EarlyKmmap :=
  match s.umemEntry L base size with
  | none => (0, s)
  | some entry =>
    let (ret, t) := s.earlyMappingAdd valid entry
    if ret < 0 then (0, t)
    else (entry.size, { t with umemTop := u32 (t.umemTop + entry.size) })

/-- The entry `early_mapping_add_devspace` constructs: an identity mapping. -/
def devspaceEntry (base size : Nat) : EarlyMapping := ⟨base, u32 base, size, .kmmap⟩

/-- `early_mapping_add_devspace`. -/
def earlyMappingAddDevspace (base size : Nat) (s : EarlyKmmap) : Nat × EarlyKmmap :=
  let (ret, t) := s.earlyMappingAdd valid (devspaceEntry base size)
  if ret < 0 then (0, t) else (size, t)

end Calls

/-! ### One entry -/

section Add

variable {valid : EarlyMapping → Bool} {entry : EarlyMapping} {s : EarlyKmmap}

/-- `early_mapping_add` refuses the entry, or appends it after comparing it with every
queued one. -/
theorem earlyMappingAdd_queue :
    (s.earlyMappingAdd valid entry).2.queue = s.queue ∨
      (s.earlyMappingAdd valid entry).2.queue = s.queue ++ [entry] ∧
        ∀ q ∈ s.queue, overlap entry.vaddr entry.size q.vaddr q.size = false := by
  unfold earlyMappingAdd
  split
  case isFalse => exact .inl rfl
  case isTrue h =>
    refine .inr ⟨rfl, fun q hq => ?_⟩
    unfold addCheck enomem einval at h
    split at h
    · exact absurd h (by decide)
    · split at h
      · exact absurd h (by decide)
      · split at h
        · exact absurd h (by decide)
        next hany =>
          rw [List.any_eq_true] at hany
          exact Bool.eq_false_iff.mpr fun hover => hany ⟨q, hq, hover⟩

/-- Without wrapping, `OVERLAP` finds every intersection of ranges that start at
different addresses. -/
theorem disjoint_of_overlap {a b : EarlyMapping} (ha : a.NoWrap) (hb : b.NoWrap)
    (hne : a.vaddr ≠ b.vaddr) (h : overlap a.vaddr a.size b.vaddr b.size = false) :
    Disjoint a.range.bytes b.range.bytes := by
  unfold overlap u32 at h
  rw [Nat.mod_eq_of_lt ha, Nat.mod_eq_of_lt hb] at h
  simp only [gt_iff_lt, Bool.or_eq_false_iff, Bool.and_eq_false_iff, decide_eq_false_iff_not]
    at h
  rw [Set.disjoint_left]
  intro x hxa hxb
  simp only [EarlyMapping.range, Region.mem_bytes, Region.stop] at hxa hxb
  omega

/-- Ranges of positive size with one start intersect, whatever `OVERLAP` says. -/
theorem not_disjoint_of_same_start {a b : EarlyMapping} (ha : 0 < a.size) (hb : 0 < b.size)
    (h : a.vaddr = b.vaddr) : ¬ Disjoint a.range.bytes b.range.bytes := by
  rw [Set.not_disjoint_iff]
  refine ⟨a.vaddr, ?_, ?_⟩ <;>
    simp only [EarlyMapping.range, Region.mem_bytes, Region.stop] <;> omega

end Add

/-! ### Calls and runs -/

/-- A call of the module. -/
inductive Call
  | clear
  | add (entry : EarlyMapping)
  | addMemory (base size : Nat)
  | addKmmap (base size : Nat)
  | addUmem (base size : Nat)
  | addDevspace (base size : Nat)

section Runs

variable (L : Layout) (valid : EarlyMapping → Bool)

/-- The state after a call. -/
def Call.run (s : EarlyKmmap) : Call → EarlyKmmap
  | .clear => earlyMappingClear L
  | .add entry => (s.earlyMappingAdd valid entry).2
  | .addMemory base size => (s.earlyMappingAddMemory L valid base size).2
  | .addKmmap base size => (s.earlyMappingAddKmmap L valid base size).2
  | .addUmem base size => (s.earlyMappingAddUmem L valid base size).2
  | .addDevspace base size => (s.earlyMappingAddDevspace valid base size).2

/-- The entry a call hands to `early_mapping_add`, if it gets there. -/
def Call.entry (s : EarlyKmmap) : Call → Option EarlyMapping
  | .clear => none
  | .add entry => some entry
  | .addMemory base size => s.memoryEntry L base size
  | .addKmmap base size => s.kmmapEntry L base size
  | .addUmem base size => s.umemEntry L base size
  | .addDevspace base size => some (devspaceEntry base size)

/-- `vaddr + size` of the call's entry does not wrap. -/
def Call.NoWrap (s : EarlyKmmap) (c : Call) : Prop := ∀ e ∈ c.entry L s, e.NoWrap

/-- The call's entry is empty or does not start where a non-empty queued entry does. -/
def Call.FreshStart (s : EarlyKmmap) (c : Call) : Prop :=
  ∀ e ∈ c.entry L s, 0 < e.size → ∀ q ∈ s.queue, 0 < q.size → q.vaddr ≠ e.vaddr

/-- One call whose arguments do not wrap. -/
def Step (s t : EarlyKmmap) : Prop := ∃ c : Call, c.NoWrap L s ∧ t = c.run L valid s

/-- One call whose arguments do not wrap and whose entry has a start of its own. -/
def FreshStep (s t : EarlyKmmap) : Prop :=
  ∃ c : Call, c.NoWrap L s ∧ c.FreshStart L s ∧ t = c.run L valid s

/-- Any two distinct entries of positive size in the queue have disjoint ranges. -/
def AllDisjoint (s : EarlyKmmap) : Prop :=
  s.queue.Pairwise fun a b => 0 < a.size → 0 < b.size → Disjoint a.range.bytes b.range.bytes

variable {L valid} {s t : EarlyKmmap}

/-- A call leaves the queue alone, empties it, or does to it what `early_mapping_add`
does with the call's entry. -/
theorem Call.run_queue (c : Call) :
    (c.run L valid s).queue = s.queue ∨ (c.run L valid s).queue = [] ∨
      ∃ e ∈ c.entry L s, (c.run L valid s).queue = (s.earlyMappingAdd valid e).2.queue := by
  cases c with
  | clear => exact .inr (.inl rfl)
  | add entry => exact .inr (.inr ⟨entry, rfl, rfl⟩)
  | addMemory base size =>
    simp only [run, entry, earlyMappingAddMemory]
    cases h : s.memoryEntry L base size with
    | none => exact .inl rfl
    | some e =>
      refine .inr (.inr ⟨e, rfl, ?_⟩)
      dsimp only
      split <;> rfl
  | addKmmap base size =>
    simp only [run, entry, earlyMappingAddKmmap]
    cases h : s.kmmapEntry L base size with
    | none => exact .inl rfl
    | some e =>
      refine .inr (.inr ⟨e, rfl, ?_⟩)
      dsimp only
      split <;> rfl
  | addUmem base size =>
    simp only [run, entry, earlyMappingAddUmem]
    cases h : s.umemEntry L base size with
    | none => exact .inl rfl
    | some e =>
      refine .inr (.inr ⟨e, rfl, ?_⟩)
      dsimp only
      split <;> rfl
  | addDevspace base size =>
    refine .inr (.inr ⟨_, rfl, ?_⟩)
    simp only [run, earlyMappingAddDevspace]
    split <;> rfl

/-- The queue holds entries that do not wrap and are pairwise disjoint. -/
structure Inv (s : EarlyKmmap) : Prop where
  noWrap : ∀ q ∈ s.queue, q.NoWrap
  disjoint : s.AllDisjoint

theorem Inv.of_queue_eq (h : Inv s) (hq : t.queue = s.queue) : Inv t := by
  refine ⟨?_, ?_⟩
  · rw [hq]
    exact h.noWrap
  · unfold AllDisjoint
    rw [hq]
    exact h.disjoint

theorem Inv.of_queue_nil (hq : t.queue = []) : Inv t := by
  refine ⟨?_, ?_⟩
  · rw [hq]
    exact fun q hmem => absurd hmem List.not_mem_nil
  · unfold AllDisjoint
    rw [hq]
    exact List.Pairwise.nil

/-- Queueing one more entry that `OVERLAP` finds no fault with and that has a start of
its own. -/
theorem Inv.append {e : EarlyMapping} (h : Inv s) (hq : t.queue = s.queue ++ [e])
    (hwrap : e.NoWrap) (hover : ∀ q ∈ s.queue, overlap e.vaddr e.size q.vaddr q.size = false)
    (hfresh : 0 < e.size → ∀ q ∈ s.queue, 0 < q.size → q.vaddr ≠ e.vaddr) : Inv t := by
  refine ⟨?_, ?_⟩
  · rw [hq]
    intro q hmem
    rcases List.mem_append.mp hmem with hmem | hmem
    · exact h.noWrap q hmem
    · rw [List.mem_singleton.mp hmem]
      exact hwrap
  · unfold AllDisjoint
    rw [hq, List.pairwise_append]
    refine ⟨h.disjoint, List.pairwise_singleton _ _, fun q hmem b hb hpos hbpos => ?_⟩
    rw [List.mem_singleton.mp hb] at hbpos ⊢
    have hne : e.vaddr ≠ q.vaddr := (hfresh hbpos q hmem hpos).symm
    exact (disjoint_of_overlap hwrap (h.noWrap q hmem) hne (hover q hmem)).symm

theorem FreshStep.inv (hstep : FreshStep L valid s t) (h : Inv s) : Inv t := by
  obtain ⟨c, hwrap, hfresh, rfl⟩ := hstep
  obtain hq | hq | ⟨e, he, hq⟩ := c.run_queue
  · exact h.of_queue_eq hq
  · exact .of_queue_nil hq
  · obtain hadd | ⟨hadd, hover⟩ := s.earlyMappingAdd_queue
    · exact h.of_queue_eq (hq.trans hadd)
    · exact h.append (hq.trans hadd) (hwrap e he) hover (hfresh e he)

/-- Early mappings do not overlap: after any sequence of calls whose entries do not wrap
and, when not empty, do not start where a non-empty queued entry starts. -/
theorem early_mappings_disjoint (hrun : Relation.ReflTransGen (FreshStep L valid) boot s) :
    s.AllDisjoint := by
  suffices h : Inv s from h.disjoint
  induction hrun with
  | refl => exact .of_queue_nil rfl
  | tail _ hstep ih => exact hstep.inv ih

/-- The condition is sharp: an accepted entry that starts where a queued one does
overlaps with it. -/
theorem add_of_same_start {e q : EarlyMapping} (hq : q ∈ s.queue)
    (hacc : t.queue = s.queue ++ [e]) (he : 0 < e.size) (hpos : 0 < q.size)
    (h : q.vaddr = e.vaddr) : ¬ t.AllDisjoint := by
  unfold AllDisjoint
  rw [hacc, List.pairwise_append]
  rintro ⟨-, -, hall⟩
  exact not_disjoint_of_same_start hpos he h (hall q hq e (List.mem_singleton.mpr rfl) hpos he)

end Runs

/-- The default configuration. -/
def defaultLayout : Layout := ⟨0x80000000, 0xf0000000, 0xfffff000, 0x7ff00000⟩

variable {L : Layout} {valid : EarlyMapping → Bool} {s : EarlyKmmap}

/-- A call whose entry does not wrap and starts where no queued entry does. -/
theorem FreshStep.of_entry (c : Call) {e : EarlyMapping} (he : c.entry L s = some e)
    (hwrap : e.vaddr + e.size < 2 ^ 32) (hfresh : ∀ q ∈ s.queue, q.vaddr ≠ e.vaddr)
    : FreshStep L valid s (c.run L valid s) := by
  refine ⟨c, ?_, ?_, rfl⟩
  · rintro e' he'
    cases he.symm.trans he'
    exact hwrap
  · rintro e' he' - q hq -
    cases he.symm.trans he'
    exact hfresh q hq

theorem FreshStep.clear :
    FreshStep L valid s (earlyMappingClear L) :=
  ⟨.clear, fun _ he => (Option.not_mem_none _ he).elim,
    fun _ he => (Option.not_mem_none _ he).elim, rfl⟩

theorem FreshStep.step {t : EarlyKmmap} (h : FreshStep L valid s t) : Step L valid s t := by
  obtain ⟨c, hwrap, -, rfl⟩ := h
  exact ⟨c, hwrap, rfl⟩

/-- Linear memory, one device window behind it, then a `kmmap` page. -/
theorem early_mappings_disjoint_three :
    ∃ s : EarlyKmmap, s.queue.length = 3 ∧ s.AllDisjoint := by
  let valid : EarlyMapping → Bool := fun _ => true
  let s0 := earlyMappingClear defaultLayout
  let s1 := Call.run defaultLayout valid s0 (.addMemory 0 0x10000000)
  let s2 := Call.run defaultLayout valid s1 (.addDevspace 0xbfd00000 0x100000)
  let s3 := Call.run defaultLayout valid s2 (.addKmmap 0x1fe00000 0x1000)
  have h1 : FreshStep defaultLayout valid s0 s1 := .of_entry _ rfl (by decide) (by decide)
  have h2 : FreshStep defaultLayout valid s1 s2 := .of_entry _ rfl (by decide) (by decide)
  have he : (Call.addKmmap 0x1fe00000 0x1000).entry defaultLayout s2 =
      some ⟨0x1fe00000, 0xf0000000, 0x1000, .kmmap⟩ := by decide
  have h3 : FreshStep defaultLayout valid s2 s3 := .of_entry _ he (by decide) (by decide)
  have hrun : Relation.ReflTransGen (FreshStep defaultLayout valid) boot s3 :=
    (((Relation.ReflTransGen.single FreshStep.clear).tail h1).tail h2).tail h3
  exact ⟨s3, by decide, early_mappings_disjoint hrun⟩

/-- The console mapped dynamically by `get_mapped_base`, whose entry leaves `vaddr` at
`NULL`, after user memory was mapped at `USER_BASE`. -/
theorem early_mappings_overlap :
    ∃ s : EarlyKmmap, Relation.ReflTransGen (Step defaultLayout fun _ => true) boot s ∧
      ¬ s.AllDisjoint := by
  let valid : EarlyMapping → Bool := fun _ => true
  let s0 := earlyMappingClear defaultLayout
  let s1 := Call.run defaultLayout valid s0 (.addUmem 0 0x10000000)
  let console : EarlyMapping := ⟨0x1fe00000, 0, 0x1000, .kmmap⟩
  let s2 := Call.run defaultLayout valid s1 (.add console)
  have h0 : Step defaultLayout valid boot s0 := FreshStep.clear.step
  have h1 : FreshStep defaultLayout valid s0 s1 := .of_entry _ rfl (by decide) (by decide)
  have h2 : Step defaultLayout valid s1 s2 := by
    refine ⟨.add console, fun e he => ?_, rfl⟩
    cases he
    exact show 0 + 0x1000 < 2 ^ 32 by decide
  refine ⟨s2, ((Relation.ReflTransGen.single h0).tail h1.step).tail h2, ?_⟩
  have hq : (⟨0, 0, 0x10000000, .memory⟩ : EarlyMapping) ∈ s1.queue := by decide
  have hacc : s2.queue = s1.queue ++ [console] := rfl
  exact add_of_same_start hq hacc (by decide) (by decide) rfl

end EarlyKmmap

end AimKernel
