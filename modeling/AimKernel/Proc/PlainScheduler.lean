import AimKernel.Lib.Ring
import AimKernel.Mm.Types
import AimKernel.Proc.Sched

/-!
# AimKernel.Proc.PlainScheduler

The scheduler of `kern/proc/sched/scheduler.c`: processes on a ring through their `sched_node`.

A `struct proc *` is an address, and `0` is `NULL`. The nodes of the ring are named by the process
that they are part of, so that `list_entry` of a node is its name. `list_entry` of the sentinel is
an address as well, though there is no process there (`Layout.sentry`). This is what the loops
leave in their variable when they find nothing, and what the functions compare is not the node of
it with the sentinel, but the address itself. The two are never the same, since `sched_node` is
not the first field of `struct proc`.

Two kinds of memory are read that are not part of a process: what is at the place of a process
around the sentinel, which is a value of the map `proc` like any other, and the link of `NULL`,
where the access may fault (`SchedList.null`).

`wakeup` holds `sched_lock` while it calls `proc_next`, which takes it. Nobody else can release the
lock then, so waiting for it is a loop in which nothing changes (`spinLock`).
-/

namespace AimKernel.PlainScheduler

open Sched (ProcState)

/-! ### The functions -/

/-- Where things are: `&__head`, and the offset of `sched_node` in `struct proc`, whose first
field is `kstack`. -/
structure Layout where
  head : Nat
  schedNode : Nat
  inside : 0 < schedNode
  below : schedNode < head
  head_lt : head < 2 ^ 32

/-- The fields of `struct proc` that the scheduler uses. -/
structure ProcFields where
  pid : Int
  kpid : Int
  state : ProcState
  bed : Nat
  oncpu : Nat
  deriving Repr, DecidableEq

/-- The list, and the memory that is reached from it. -/
structure SchedList where
  ring : Ring Nat
  /-- What is read as `NULL->sched_node.next`, if the access does not fault. -/
  null : Option (Hook Nat)
  proc : Nat → ProcFields
  /-- `sched_lock` is held. -/
  locked : Bool

/-- `list_entry(ptr, struct proc, sched_node)`. -/
def listEntry (L : Layout) : Hook Nat → Nat
  | .head => u32 (L.head + (2 ^ 32 - L.schedNode))
  | .node p => p

/-- The `struct proc *` around the sentinel. -/
def Layout.sentry (L : Layout) : Nat := listEntry L .head

/-- `&p0->sched_node`. -/
def schedNode (L : Layout) (p0 : Nat) : Hook Nat := if p0 = L.sentry then .head else .node p0

namespace SchedList

variable (L : Layout)

/-- `__init`. -/
def init (s : SchedList) : SchedList := { s with ring := s.ring.listInit .head }

/-- `__add`. -/
def add (p0 : Nat) (s : SchedList) : SchedList :=
  { s with ring := (s.ring.listInit (.node p0)).listAdd (.node p0) .head }

/-- `__remove`. -/
def remove (p0 : Nat) (s : SchedList) : SchedList := { s with ring := s.ring.listDel (.node p0) }

/-- How `__pick` and `__find` end, with `a` as the loop has left it. -/
def unlessHead (a : Nat) : Nat := if a ≠ L.head then a else 0

/-- `__pick`; nothing if the loop is still running. -/
def pick (fuel : Nat) (s : SchedList) : Option Nat :=
  (s.ring.forEachReverse (fun a => (s.proc a).state = .runnable) fuel (s.ring.prev .head)).map
    fun a => unlessHead L (listEntry L a)

/-- `__find`. -/
def find (fuel : Nat) (pid : Int) (s : SchedList) : Option Nat :=
  (s.ring.forEach (fun a => (s.proc a).pid = pid) fuel (s.ring.next .head)).map
    fun a => unlessHead L (listEntry L a)

/-- `p0->sched_node.next`. -/
def link (p0 : Nat) (s : SchedList) : Option (Hook Nat) :=
  if p0 = 0 then s.null else some (s.ring.next (schedNode L p0))

/-- `__next`; nothing if it faults. -/
def next (p0 : Nat) (s : SchedList) : Option Nat :=
  (s.link L p0).map fun r =>
    let res := listEntry L r
    if res = L.head then 0 else res

/-- Write `proc->state`. -/
def setState (p : Nat) (x : ProcState) (s : SchedList) : SchedList :=
  { s with proc := Function.update s.proc p { s.proc p with state := x } }

/-- `__update_proc`, on a CPU. -/
def updateProc (cpu p : Nat) (s : SchedList) : SchedList :=
  { s with proc := Function.update s.proc p { s.proc p with state := .onproc, oncpu := cpu } }

end SchedList

/-- Why a function does not return. -/
inductive Stop
  | running
  | assertion
  | fault
  deriving Repr, DecidableEq

/-- `schedule`, up to the process that it switches to. -/
def schedule (L : Layout) (fuel cpu oldproc idleproc : Nat) (s : SchedList) :
    Except Stop (Nat × SchedList) :=
  if ((s.proc oldproc).kpid = 0 ↔ oldproc = idleproc) then
    let s := if (s.proc oldproc).state = .onproc then s.setState oldproc .runnable else s
    match s.pick L fuel with
    | none => .error .running
    | some newproc =>
      let newproc := if newproc = 0 then idleproc else newproc
      .ok (newproc, s.updateProc cpu newproc)
  else .error .assertion

/-- `spin_lock(&sched_lock)`. -/
def spinLock : Nat → SchedList → Except Stop SchedList
  | 0, _ => .error .running
  | fuel + 1, s => if s.locked then spinLock fuel s else .ok { s with locked := true }

/-- `spin_unlock(&sched_lock)`. -/
def spinUnlock (s : SchedList) : SchedList := { s with locked := false }

/-- `proc_next`. It returns before it comes to `sched_exit_critical`. -/
def procNext (L : Layout) (fuel p : Nat) (s : SchedList) : Except Stop (Nat × SchedList) := do
  let s ← spinLock fuel s
  match s.next L p with
  | none => throw .fault
  | some res => return (res, s)

/-- The loop of `wakeup`. -/
def wakeupLoop (L : Layout) (bed : Nat) : Nat → Nat → SchedList → Except Stop SchedList
  | 0, _, _ => .error .running
  | fuel + 1, proc, s =>
    if proc = 0 then .ok s
    else do
      let s :=
        if (s.proc proc).bed = bed ∧ (s.proc proc).state = .sleeping then
          s.setState proc .runnable
        else s
      let (proc, s) ← procNext L fuel proc s
      wakeupLoop L bed fuel proc s

/-- `wakeup`. -/
def wakeup (L : Layout) (fuel bed : Nat) (s : SchedList) : Except Stop SchedList := do
  let s ← spinLock fuel s
  let (proc, s) ← procNext L fuel 0 s
  let s ← wakeupLoop L bed fuel proc s
  return spinUnlock s

/-! ### Lists that are built -/

/-- The address of a process: it is not `NULL`, and the process does not overlap the sentinel. -/
structure Layout.Proper (L : Layout) (p : Nat) : Prop where
  ne_null : p ≠ 0
  ne_head : p ≠ L.head
  ne_sentry : p ≠ L.sentry

/-- Lists that come from `__init` by `__add` of processes that are not listed and `__remove` of
such that are, with the processes on them, the last one added first. Fields may change at any
time. -/
inductive Built (L : Layout) : SchedList → List Nat → Prop
  | init (s : SchedList) : Built L s.init []
  | add {s : SchedList} {ps : List Nat} {p : Nat} (h : Built L s ps) (hnew : p ∉ ps)
      (hp : L.Proper p) : Built L (s.add p) (p :: ps)
  | remove {s : SchedList} {ps : List Nat} {p : Nat} (h : Built L s ps) (hp : p ∈ ps) :
      Built L (s.remove p) (ps.erase p)
  | write {s : SchedList} {ps : List Nat} (h : Built L s ps) (null : Option (Hook Nat))
      (proc : Nat → ProcFields) (locked : Bool) :
      Built L { s with null := null, proc := proc, locked := locked } ps

section Lists

variable {L : Layout} {s : SchedList} {ps : List Nat} {fuel : Nat}

theorem Layout.sentry_eq (L : Layout) : L.sentry = L.head - L.schedNode := by
  have hbelow := L.below
  have hlt := L.head_lt
  show u32 (L.head + (2 ^ 32 - L.schedNode)) = _
  unfold u32
  omega

theorem Layout.sentry_ne_null (L : Layout) : L.sentry ≠ 0 := by
  have := L.below
  rw [L.sentry_eq]
  omega

theorem Layout.sentry_ne_head (L : Layout) : L.sentry ≠ L.head := by
  have := L.inside
  have := L.below
  rw [L.sentry_eq]
  omega

/-- **The ring** consists of the listed processes. -/
theorem Built.holds (h : Built L s ps) : s.ring.Holds ps := by
  induction h with
  | init s => exact Ring.holds_listInit s.ring
  | add h hnew hp ih => exact (ih.listInit hnew).listAdd hnew
  | @remove s ps p h hp ih =>
    obtain ⟨l, q, rfl⟩ := List.append_of_mem hp
    have hl : p ∉ l := fun hmem =>
      (List.nodup_middle.mp ih.nodup).notMem (List.mem_append_left q hmem)
    rw [List.erase_append_right _ hl, List.erase_cons_head]
    exact ih.listDel
  | write h null proc locked ih => exact ih

theorem Built.proper (h : Built L s ps) : ∀ p ∈ ps, L.Proper p := by
  induction h with
  | init s => intro p hp; cases hp
  | add h hnew hp ih => exact List.forall_mem_cons.mpr ⟨hp, ih⟩
  | remove h hp ih => exact fun p hmem => ih p (List.mem_of_mem_erase hmem)
  | write h null proc locked ih => exact ih

/-- What the end of `__pick` and `__find` makes of a walk. -/
theorem unlessHead_find (hproper : ∀ p ∈ ps, L.Proper p) (stop : Nat → Bool) :
    SchedList.unlessHead L (listEntry L ((ps.find? stop).elim .head .node)) =
      (ps.find? stop).getD L.sentry := by
  cases hfind : ps.find? stop with
  | none => exact if_pos L.sentry_ne_head
  | some p => exact if_pos (hproper p (List.mem_of_find?_eq_some hfind)).ne_head

/-- **`__pick`** finds the runnable process that was added first, or else the sentinel. -/
theorem Built.pick_eq (h : Built L s ps) (hfuel : ps.length < fuel) : s.pick L fuel =
    some ((ps.reverse.find? fun a => (s.proc a).state = .runnable).getD L.sentry) := by
  rw [SchedList.pick, h.holds.forEachReverse_eq _ hfuel, Ring.firstHook_dropWhile, Option.map_some,
    unlessHead_find fun p hp => h.proper p (List.mem_reverse.mp hp)]

/-- **`__find`** finds the process with the number that was added last, or else the sentinel. -/
theorem Built.find_eq (h : Built L s ps) (hfuel : ps.length < fuel) (pid : Int) :
    s.find L fuel pid = some ((ps.find? fun a => (s.proc a).pid = pid).getD L.sentry) := by
  rw [SchedList.find, h.holds.forEach_eq _ hfuel, Ring.firstHook_dropWhile, Option.map_some,
    unlessHead_find h.proper]

/-! ### Picking -/

/-- What `__pick` is to return: the runnable process that was added first, or `NULL`. -/
def Picks (s : SchedList) (ps : List Nat) (r : Nat) : Prop :=
  (∃ l q, ps = l ++ r :: q ∧ (s.proc r).state = .runnable ∧
      ∀ x ∈ q, (s.proc x).state ≠ .runnable) ∨
    (∀ x ∈ ps, (s.proc x).state ≠ .runnable) ∧ r = 0

/-- The process can be dispatched when `schedule` comes to `pick`. -/
def Ready (s : SchedList) (oldproc p : Nat) : Prop :=
  (s.proc p).state = .runnable ∨ p = oldproc ∧ (s.proc p).state = .onproc

theorem Built.picks_iff (h : Built L s ps) (hfuel : ps.length < fuel) :
    (∃ r, s.pick L fuel = some r ∧ Picks s ps r) ↔ ∃ p ∈ ps, (s.proc p).state = .runnable := by
  rw [h.pick_eq hfuel]
  cases hfind : ps.reverse.find? fun a => (s.proc a).state = .runnable with
  | none =>
    have hnone : ∀ p ∈ ps, (s.proc p).state ≠ .runnable := by simpa using hfind
    constructor
    · rintro ⟨r, hr, hpicks⟩
      obtain rfl : L.sentry = r := Option.some.inj hr
      rcases hpicks with ⟨l, q, hsplit, hrun, -⟩ | ⟨-, hzero⟩
      · exact absurd hrun (hnone _ (by simp [hsplit]))
      · exact absurd hzero L.sentry_ne_null
    · rintro ⟨p, hp, hrun⟩
      exact absurd hrun (hnone p hp)
  | some p =>
    obtain ⟨hrun, l, q, hsplit, hbefore⟩ := List.find?_eq_some_iff_append.mp hfind
    have hcut : ps = q.reverse ++ p :: l.reverse := by
      rw [← List.reverse_reverse ps, hsplit]
      simp
    have hrun' : (s.proc p).state = .runnable := by simpa using hrun
    have hfirst : ∀ x ∈ l.reverse, (s.proc x).state ≠ .runnable := by
      intro x hx
      simpa using hbefore x (List.mem_reverse.mp hx)
    constructor
    · intro _
      exact ⟨p, by simp [hcut], hrun'⟩
    · intro _
      exact ⟨p, rfl, .inl ⟨q.reverse, l.reverse, hcut, hrun', hfirst⟩⟩

theorem setState_state (s : SchedList) (p x : Nat) (st : ProcState) :
    ((s.setState p st).proc x).state = if x = p then st else (s.proc x).state := by
  by_cases hx : x = p
  · simp [SchedList.setState, hx]
  · simp [SchedList.setState, hx]

/-- The list when `schedule` comes to `pick`. -/
theorem Built.yielded (h : Built L s ps) (oldproc : Nat) :
    ∃ s1, (if (s.proc oldproc).state = .onproc then s.setState oldproc .runnable else s) = s1 ∧
      Built L s1 ps ∧ ∀ p, (s1.proc p).state = .runnable ↔ Ready s oldproc p := by
  unfold Ready
  by_cases hon : (s.proc oldproc).state = .onproc
  · refine ⟨_, rfl, ?_, fun p => ?_⟩
    · rw [if_pos hon]
      exact h.write s.null _ s.locked
    · rw [if_pos hon, setState_state]
      by_cases hp : p = oldproc
      · simp [hp, hon]
      · simp [hp]
  · refine ⟨s, if_neg hon, h, fun p => ?_⟩
    constructor
    · exact .inl
    · rintro (hrun | ⟨rfl, hon'⟩)
      · exact hrun
      · exact absurd hon' hon

/-- **The process that `schedule` switches to**, once its assertion holds. -/
theorem Built.schedule_eq (h : Built L s ps) (hfuel : ps.length < fuel) {cpu oldproc idleproc : Nat}
    (hassert : (s.proc oldproc).kpid = 0 ↔ oldproc = idleproc) :
    ∃ newproc s', schedule L fuel cpu oldproc idleproc s = .ok (newproc, s') ∧
      (newproc ∈ ps ∧ Ready s oldproc newproc ∨
        newproc = L.sentry ∧ ∀ p ∈ ps, ¬ Ready s oldproc p) := by
  obtain ⟨s1, hs1, hbuilt, hready⟩ := h.yielded oldproc
  have hpick := hbuilt.pick_eq hfuel
  rw [schedule, if_pos hassert, hs1]
  dsimp only
  rw [hpick]
  cases hfind : ps.reverse.find? fun a => (s1.proc a).state = .runnable with
  | none =>
    refine ⟨_, _, rfl, .inr ⟨if_neg L.sentry_ne_null, fun p hp hrun => ?_⟩⟩
    have hnone : ∀ p ∈ ps, (s1.proc p).state ≠ .runnable := by simpa using hfind
    exact hnone p hp ((hready p).mpr hrun)
  | some p =>
    have hmem : p ∈ ps := List.mem_reverse.mp (List.mem_of_find?_eq_some hfind)
    have hrun : (s1.proc p).state = .runnable := by simpa using List.find?_some hfind
    refine ⟨_, _, rfl, .inl ?_⟩
    rw [Option.getD_some, if_neg (h.proper p hmem).ne_null]
    exact ⟨hmem, (hready p).mp hrun⟩

/-- **Who is dispatched.** `pick` returns the runnable process that was added first, and `schedule`
switches to a listed runnable process or to the idle process, if and only if a listed process is
runnable. -/
theorem dispatches_runnable_iff (h : Built L s ps) (hfuel : ps.length < fuel) :
    ((∃ r, s.pick L fuel = some r ∧ Picks s ps r) ↔ ∃ p ∈ ps, (s.proc p).state = .runnable) ∧
    ∀ cpu oldproc idleproc, L.Proper idleproc →
      ((s.proc oldproc).kpid = 0 ↔ oldproc = idleproc) →
      ((∃ newproc s', schedule L fuel cpu oldproc idleproc s = .ok (newproc, s') ∧
          (newproc ∈ ps ∧ Ready s oldproc newproc ∨ newproc = idleproc)) ↔
        ∃ p ∈ ps, Ready s oldproc p) := by
  refine ⟨h.picks_iff hfuel, fun cpu oldproc idleproc hidle hassert => ?_⟩
  obtain ⟨newproc, s', hrun, hcases⟩ := @Built.schedule_eq L s ps fuel h hfuel cpu oldproc idleproc hassert
  rw [hrun]
  constructor
  · rintro ⟨newproc', s'', heq, hgood⟩
    obtain ⟨rfl, -⟩ := Prod.mk.inj (Except.ok.inj heq)
    rcases hcases with ⟨hmem, hready⟩ | ⟨hsentry, hnone⟩
    · exact ⟨newproc, hmem, hready⟩
    · rcases hgood with ⟨hmem, hready⟩ | hidle'
      · exact ⟨newproc, hmem, hready⟩
      · exact absurd (hidle'.symm.trans hsentry) hidle.ne_sentry
  · rintro ⟨p, hp, hready⟩
    rcases hcases with hgood | ⟨-, hnone⟩
    · exact ⟨newproc, s', rfl, .inl hgood⟩
    · exact absurd hready (hnone p hp)

end Lists

/-- An address for the sentinel, and the offset of the node in a process. -/
def kernelLayout : Layout := ⟨0x80100000, 0x1f8, by decide, by decide, by decide⟩

/-- A list of which nothing is known, with a process that waits to run. -/
def somewhere : SchedList where
  ring := ⟨fun _ => .head, fun _ => .head⟩
  null := none
  proc := fun p => ⟨p, p, if p = 0x80300000 then .runnable else .sleeping, 7, 0⟩
  locked := false

/-- That process, and one that sleeps. -/
def twoProcs : SchedList := (somewhere.init.add 0x80300000).add 0x80301000

theorem twoProcs_built : Built kernelLayout twoProcs [0x80301000, 0x80300000] :=
  .add (.add (.init somewhere) (by decide) ⟨by decide, by decide, by decide⟩) (by decide)
    ⟨by decide, by decide, by decide⟩

theorem dispatches_runnable_two_procs :
    ∃ r, twoProcs.pick kernelLayout 3 = some r ∧ Picks twoProcs [0x80301000, 0x80300000] r :=
  (dispatches_runnable_iff twoProcs_built (by decide)).1.mpr
    ⟨0x80300000, List.mem_cons_of_mem _ List.mem_cons_self, rfl⟩

/-- With nothing on the list, `pick` returns the address of a process around the sentinel, and
`schedule` switches there. -/
theorem pick_of_empty_list :
    somewhere.init.pick kernelLayout 1 = some 0x800ffe08 ∧
      (schedule kernelLayout 1 0 0x80200000 0x80200000
        { somewhere.init with proc := fun _ => ⟨0, 0, .onproc, 0, 0⟩ }).toOption.map Prod.fst =
          some 0x800ffe08 := by
  decide +kernel

end AimKernel.PlainScheduler
