import Mathlib.Logic.Function.Basic
import Mathlib.Logic.Relation

/-!
# AimKernel.Proc.Sched

The scheduler of `kern/proc/sched/sched.c` and the context switch of
`kern/arch/mips/proc.c`, on any number of CPUs.

One step is one statement that touches shared state, executed by one CPU. A CPU has a
program counter with the local variables of the call it is in (`Pc`); a process that is
not running keeps in its context the program counter it will resume at, together with
the interrupt-enable bit, which is part of the status register that `switch_regs` saves
and restores. A new process resumes in `forkret`.

Taken as given: `scheduler->pick` returns some listed runnable process or `NULL`;
spin locks exclude each other. The iteration of `wakeup` exists twice: through
`proc_next`, as the source has it (`nested`), and as a plain walk over the listed
processes.

Some fields are histories that no step reads: `acquired` and `released` count what each
CPU did to `sched_lock`; `version`, `seen`, `called`, `slept` and `served` follow the
conditions that processes sleep for.
-/

namespace AimKernel.Sched

/-- A `struct proc *`: the idle process of a CPU, or one made by `proc_new`. -/
inductive ProcId
  | idle (cpu : Nat)
  | other (n : Nat)
  deriving Repr, DecidableEq

/-- The `PS_` values of `proc->state`. -/
inductive ProcState
  | embryo
  | runnable
  | sleeping
  | zombie
  | onproc
  deriving Repr, DecidableEq

/-- The calls, with their arguments and with the locals set before the critical section.
Locks are numbered; `sched_lock` is none of them, as `sleep_with_lock` asserts. -/
inductive Call
  | schedule (oldproc : ProcId)
  | sleepWithLock (bed : Nat) (lock : Option Nat)
  | wakeup (bed : Nat)
  | procAdd (proc : Nat)
  | procRemove (proc : Nat)
  | procNext (proc : Option Nat)
  | setScheduler (sch : Nat)
  /-- Where a new process starts; no caller. -/
  | forkret
  deriving Repr, DecidableEq

/-- `sleep`. -/
def sleep (bed : Nat) : Call := .sleepWithLock bed none

/-- Does the call keep its flags in `__sched_intrflags`, through `sched_enter_critical`
and `sched_exit_critical`? The others have a local variable. -/
def Call.global : Call → Bool
  | .sleepWithLock _ _ | .wakeup _ => false
  | _ => true

/-- What is on the stack below `switch_context`. -/
inductive Resume
  | schedule (oldproc : ProcId) (flags : Bool)
  | sleep (bed : Nat) (lock : Option Nat) (flags : Bool)
  deriving Repr, DecidableEq

/-- Program counters: each names the statement to be executed next. `flags` is the
interrupt-enable bit found at entry. -/
inductive Pc
  /-- Outside the calls. -/
  | user
  /-- `spin_lock(&sched_lock)`, at entry. -/
  | acquire (k : Call) (flags : Bool)
  /-- The first statement after it. -/
  | body (k : Call) (flags : Bool)
  /-- `newproc = scheduler->pick()`, with its default. -/
  | pick (oldproc : ProcId) (flags : Bool)
  /-- `__update_proc(newproc)`. -/
  | update (oldproc newproc : ProcId) (flags : Bool)
  /-- `current_proc->bed = bed`. -/
  | setBed (bed : Nat) (lock : Option Nat) (flags : Bool)
  /-- `current_proc->state = PS_SLEEPING`. -/
  | setState (bed : Nat) (lock : Option Nat) (flags : Bool)
  /-- The head of the loop of `wakeup`, with the processes still to come. -/
  | walk (bed : Nat) (flags : Bool) (rest : List Nat)
  /-- `spin_lock(&sched_lock)` of the `proc_next` in that head. -/
  | walkLock (bed : Nat) (flags : Bool) (rest : List Nat)
  /-- The body of that loop. -/
  | visit (bed : Nat) (flags : Bool) (proc : Nat) (rest : List Nat)
  /-- `current_proc = proc` in `switch_context`. -/
  | switchTo (proc : ProcId) (ret : Resume)
  /-- The stores of `switch_regs`. -/
  | saveRegs (current proc : ProcId) (ret : Resume)
  /-- The loads of `switch_regs`. -/
  | loadRegs (proc : ProcId)
  /-- `current_proc->bed = NULL`. -/
  | woken (bed : Nat) (lock : Option Nat) (flags : Bool)
  /-- `spin_unlock(&sched_lock)`. -/
  | release (k : Call) (flags : Bool)
  /-- `local_irq_restore`. -/
  | restore (k : Call) (flags : Bool)
  /-- `spin_lock(lock)` at the end of `sleep_with_lock`. -/
  | relock (lock : Nat)
  /-- Stopped by the assertion of `schedule`. -/
  | panicked
  deriving Repr, DecidableEq

/-- Where a process that called `switch_context` goes on. -/
def Resume.pc : Resume → Pc
  | .schedule oldproc flags => .release (.schedule oldproc) flags
  | .sleep bed lock flags => .woken bed lock flags

/-- `struct context`: what `switch_regs` saves. -/
structure Context where
  pc : Pc
  ie : Bool
  deriving Repr, DecidableEq

/-- The state of all CPUs and processes. -/
structure State where
  /-- Per CPU: program counter, interrupt-enable bit, `current_proc`. -/
  pc : Nat → Pc
  ie : Nat → Bool
  cur : Nat → ProcId
  /-- Per process. -/
  state : ProcId → ProcState
  oncpu : ProcId → Option Nat
  bed : ProcId → Nat
  kpid : ProcId → Nat
  context : ProcId → Context
  /-- `scheduler`, and the list each scheduler has. -/
  scheduler : Nat
  lists : Nat → List Nat
  /-- The CPU that holds `sched_lock`, `__sched_intrflags`, and the processes that hold
  other locks. -/
  lock : Option Nat
  intrflags : Bool
  locks : Nat → Option ProcId
  /-- How often a CPU took and released `sched_lock`. -/
  acquired : Nat → Nat
  released : Nat → Nat
  /-- How often the condition a lock protects was changed. -/
  version : Nat → Nat
  /-- `version` when the process last held the lock. -/
  seen : ProcId → Nat → Nat
  /-- `version` when the CPU last entered one of the calls. -/
  called : Nat → Nat → Nat
  /-- The lock a sleeping process released. -/
  slept : ProcId → Option Nat
  /-- For a bed and a lock, the largest `called` of a `wakeup` that is over. -/
  served : Nat → Nat → Nat

/-- The processes the current scheduler has listed. -/
def State.listed (s : State) : List Nat := s.lists s.scheduler

/-- Move one CPU. -/
def State.goto (s : State) (c : Nat) (pc : Pc) : State :=
  { s with pc := Function.update s.pc c pc }

/-- `local_irq_save` on one CPU, except for the variable that gets the flags. -/
def State.irqSave (s : State) (c : Nat) : State :=
  { s with ie := Function.update s.ie c false }

/-- A CPU gets `sched_lock`. -/
def State.take (s : State) (c : Nat) : State :=
  { s with lock := some c, acquired := Function.update s.acquired c (s.acquired c + 1) }

/-- A CPU releases `sched_lock`. -/
def State.drop (s : State) (c : Nat) : State :=
  { s with lock := none, released := Function.update s.released c (s.released c + 1) }

/-- A process gets another lock. -/
def State.grab (s : State) (p : ProcId) (l : Nat) : State :=
  { s with
    locks := Function.update s.locks l (some p)
    seen := Function.update s.seen p (Function.update (s.seen p) l (s.version l)) }

/-- A process that holds a lock changes the condition the lock protects. -/
def State.change (s : State) (p : ProcId) (l : Nat) : State :=
  { s with
    version := Function.update s.version l (s.version l + 1)
    seen := Function.update s.seen p (Function.update (s.seen p) l (s.version l + 1)) }

/-- Write `proc->state`. -/
def State.setState (s : State) (p : ProcId) (x : ProcState) : State :=
  { s with state := Function.update s.state p x }

/-- Write `proc->bed`. -/
def State.setBed (s : State) (p : ProcId) (b : Nat) : State :=
  { s with bed := Function.update s.bed p b }

/-- `if (lock != NULL) spin_unlock(lock)`. -/
def State.unlock (s : State) : Option Nat → State
  | none => s
  | some l => { s with locks := Function.update s.locks l none }

/-- `__update_proc`. -/
def State.updateProc (s : State) (c : Nat) (p : ProcId) : State :=
  { s.setState p .onproc with oncpu := Function.update s.oncpu p (some c) }

/-- A `wakeup` is over: the history of what it served. -/
def State.serve (s : State) (c : Nat) : Call → State
  | .wakeup bed =>
    { s with
      served := Function.update s.served bed fun l => max (s.served bed l) (s.called c l) }
  | _ => s

/-- The list after `scheduler->add` and `scheduler->remove`. -/
def State.setList (s : State) (l : List Nat) : State :=
  { s with lists := Function.update s.lists s.scheduler l }

/-- After `proc = proc_next(proc)` in `wakeup`. -/
def fetched (bed : Nat) (flags : Bool) : List Nat → Pc
  | [] => .release (.wakeup bed) flags
  | n :: rest => .visit bed flags n rest

/-- Where a call ends: `sleep_with_lock` takes its lock again. -/
def Call.after : Call → Pc
  | .sleepWithLock _ (some l) => .relock l
  | _ => .user

/-- The assertion of `schedule`. -/
def State.assertIdle (s : State) (c : Nat) (oldproc : ProcId) : Bool :=
  !xor (s.kpid oldproc = 0) (oldproc = .idle c)

section

variable (nested : Bool) (allowed : State → Nat → Call → Prop)

/-- The steps of CPU `c`. Calls are started when `allowed`. -/
inductive Step (c : Nat) (s : State) : State → Prop
  /-- A call is entered, up to its `local_irq_save`. -/
  | call (k : Call) (hpc : s.pc c = .user) (hallowed : allowed s c k) (hk : k ≠ .forkret)
      (hold : ∀ oldproc, k = .schedule oldproc → oldproc = s.cur c) :
      Step c s
        { (s.irqSave c).goto c (.acquire k (s.ie c)) with
          intrflags := if k.global then s.ie c else s.intrflags
          called := Function.update s.called c s.version }
  | acquire (k : Call) (flags : Bool) (hpc : s.pc c = .acquire k flags) (hfree : s.lock = none) :
      Step c s ((s.take c).goto c (.body k flags))
  /-- `schedule` up to `pick`. -/
  | schedule (oldproc : ProcId) (flags : Bool) (hpc : s.pc c = .body (.schedule oldproc) flags)
      (hassert : s.assertIdle c oldproc = true) :
      Step c s
        ((if s.state oldproc = .onproc then s.setState oldproc .runnable else s).goto c
          (.pick oldproc flags))
  | panic (oldproc : ProcId) (flags : Bool) (hpc : s.pc c = .body (.schedule oldproc) flags)
      (hassert : s.assertIdle c oldproc = false) : Step c s (s.goto c .panicked)
  | pickSome (oldproc : ProcId) (flags : Bool) (n : Nat) (hpc : s.pc c = .pick oldproc flags)
      (hlisted : n ∈ s.listed) (hrunnable : s.state (.other n) = .runnable) :
      Step c s (s.goto c (.update oldproc (.other n) flags))
  | pickNone (oldproc : ProcId) (flags : Bool) (hpc : s.pc c = .pick oldproc flags) :
      Step c s (s.goto c (.update oldproc (.idle c) flags))
  | update (oldproc newproc : ProcId) (flags : Bool)
      (hpc : s.pc c = .update oldproc newproc flags) :
      Step c s ((s.updateProc c newproc).goto c (.switchTo newproc (.schedule oldproc flags)))
  | switchTo (proc : ProcId) (ret : Resume) (hpc : s.pc c = .switchTo proc ret) :
      Step c s
        { s.goto c (.saveRegs (s.cur c) proc ret) with cur := Function.update s.cur c proc }
  | saveRegs (current proc : ProcId) (ret : Resume) (hpc : s.pc c = .saveRegs current proc ret) :
      Step c s
        { s.goto c (.loadRegs proc) with
          context := Function.update s.context current ⟨ret.pc, s.ie c⟩ }
  | loadRegs (proc : ProcId) (hpc : s.pc c = .loadRegs proc) :
      Step c s
        { s.goto c (s.context proc).pc with ie := Function.update s.ie c (s.context proc).ie }
  /-- `sleep_with_lock` releases its lock. -/
  | sleepUnlock (bed : Nat) (lock : Option Nat) (flags : Bool)
      (hpc : s.pc c = .body (.sleepWithLock bed lock) flags) :
      Step c s ((s.unlock lock).goto c (.setBed bed lock flags))
  | setBed (bed : Nat) (lock : Option Nat) (flags : Bool) (hpc : s.pc c = .setBed bed lock flags) :
      Step c s ((s.setBed (s.cur c) bed).goto c (.setState bed lock flags))
  | setState (bed : Nat) (lock : Option Nat) (flags : Bool)
      (hpc : s.pc c = .setState bed lock flags) :
      Step c s
        { (s.setState (s.cur c) .sleeping).goto c (.switchTo (.idle c) (.sleep bed lock flags)) with
          slept := Function.update s.slept (s.cur c) lock }
  | woken (bed : Nat) (lock : Option Nat) (flags : Bool) (hpc : s.pc c = .woken bed lock flags) :
      Step c s ((s.setBed (s.cur c) 0).goto c (.release (.sleepWithLock bed lock) flags))
  | wakeup (bed : Nat) (flags : Bool) (hpc : s.pc c = .body (.wakeup bed) flags) :
      Step c s (s.goto c (.walk bed flags s.listed))
  /-- The walk of `wakeup` goes to the next process without touching `sched_lock`. -/
  | fetch (bed : Nat) (flags : Bool) (rest : List Nat) (hmode : nested = false)
      (hpc : s.pc c = .walk bed flags rest) : Step c s (s.goto c (fetched bed flags rest))
  /-- It calls `proc_next`, up to the `local_irq_save` there. -/
  | fetchSave (bed : Nat) (flags : Bool) (rest : List Nat) (hmode : nested = true)
      (hpc : s.pc c = .walk bed flags rest) :
      Step c s { (s.irqSave c).goto c (.walkLock bed flags rest) with intrflags := s.ie c }
  /-- `proc_next` gets `sched_lock`, and returns. -/
  | fetchLock (bed : Nat) (flags : Bool) (rest : List Nat) (hpc : s.pc c = .walkLock bed flags rest)
      (hfree : s.lock = none) : Step c s ((s.take c).goto c (fetched bed flags rest))
  | visit (bed : Nat) (flags : Bool) (n : Nat) (rest : List Nat)
      (hpc : s.pc c = .visit bed flags n rest) :
      Step c s
        ((if s.bed (.other n) = bed ∧ s.state (.other n) = .sleeping then
            s.setState (.other n) .runnable else s).goto c (.walk bed flags rest))
  | procAdd (n : Nat) (flags : Bool) (hpc : s.pc c = .body (.procAdd n) flags) :
      Step c s ((s.setList (n :: s.listed)).goto c (.release (.procAdd n) flags))
  | procRemove (n : Nat) (flags : Bool) (hpc : s.pc c = .body (.procRemove n) flags) :
      Step c s ((s.setList (s.listed.erase n)).goto c (.release (.procRemove n) flags))
  | setScheduler (sch : Nat) (flags : Bool) (hpc : s.pc c = .body (.setScheduler sch) flags) :
      Step c s { s.goto c (.release (.setScheduler sch) flags) with scheduler := sch }
  /-- `proc_next` returns from inside its critical section. -/
  | procNext (proc : Option Nat) (flags : Bool) (hpc : s.pc c = .body (.procNext proc) flags) :
      Step c s (s.goto c .user)
  | release (k : Call) (flags : Bool) (hpc : s.pc c = .release k flags) :
      Step c s (((s.drop c).serve c k).goto c (.restore k flags))
  | restore (k : Call) (flags : Bool) (hpc : s.pc c = .restore k flags) :
      Step c s
        { s.goto c k.after with
          ie := Function.update s.ie c (if k.global then s.intrflags else flags) }
  | relock (l : Nat) (hpc : s.pc c = .relock l) (hfree : s.locks l = none) :
      Step c s ((s.grab (s.cur c) l).goto c .user)
  /-- Outside the calls, a process takes a lock, -/
  | userLock (l : Nat) (hpc : s.pc c = .user) (hfree : s.locks l = none) :
      Step c s (s.grab (s.cur c) l)
  /-- releases it, -/
  | userUnlock (l : Nat) (hpc : s.pc c = .user) (hheld : s.locks l = some (s.cur c)) :
      Step c s (s.unlock (some l))
  /-- changes the condition it protects, -/
  | change (l : Nat) (hpc : s.pc c = .user) (hheld : s.locks l = some (s.cur c)) :
      Step c s (s.change (s.cur c) l)
  /-- or sets the interrupt-enable bit. -/
  | setIe (b : Bool) (hpc : s.pc c = .user) :
      Step c s { s with ie := Function.update s.ie c b }

/-- Runs: any CPU may take the next step. -/
abbrev Run : State → State → Prop :=
  Relation.ReflTransGen fun s t => ∃ c, Step nested allowed c s t

end

/-- Every CPU is on its own idle process, outside the calls, as `idle_init` leaves it;
the other processes are new; nobody holds a lock. -/
structure Init (s : State) : Prop where
  pc : ∀ c, s.pc c = .user
  cur : ∀ c, s.cur c = .idle c
  idle : ∀ c, s.kpid (.idle c) = 0
  new : ∀ n, ∃ flags, (s.context (.other n)).pc = .release .forkret flags
  waiting : ∀ n, s.state (.other n) ≠ .onproc
  lock : s.lock = none
  locks : ∀ l, s.locks l = none
  counts : ∀ c, s.acquired c = 0 ∧ s.released c = 0
  called : ∀ c l, s.called c l = 0
  served : ∀ b l, s.served b l = 0

section

variable {s t u : State} {c c' : Nat} {nested : Bool} {allowed : State → Nat → Call → Prop}

theorem Run.step (h : Run nested allowed s t) (c : Nat) (hstep : Step nested allowed c t u) :
    Run nested allowed s u :=
  h.tail ⟨c, hstep⟩

theorem Run.here (_ : Run nested allowed s t) : Run nested allowed t t := .refl

theorem Step.mono {allowed' : State → Nat → Call → Prop} (hstep : Step nested allowed c s t)
    (h : ∀ k, allowed s c k → allowed' s c k) : Step nested allowed' c s t := by
  cases hstep with
  | call k hpc hallowed hk hold => exact .call k hpc (h k hallowed) hk hold
  | _ => constructor <;> assumption

theorem Run.mono {allowed' : State → Nat → Call → Prop} (hrun : Run nested allowed s t)
    (h : ∀ s c k, allowed s c k → allowed' s c k) : Run nested allowed' s t := by
  induction hrun with
  | refl => exact .refl
  | tail _ hstep ih =>
    obtain ⟨c, hstep⟩ := hstep
    exact ih.step c (hstep.mono (h _ c))

/-- A step of one CPU leaves the others where they are. -/
theorem Step.frame (hstep : Step nested allowed c s t) (hc : c' ≠ c) :
    t.pc c' = s.pc c' ∧ t.cur c' = s.cur c' ∧ t.ie c' = s.ie c' := by
  cases hstep
  all_goals
    simp [State.goto, State.irqSave, State.take, State.drop, State.grab, State.change,
      State.setState, State.setBed, State.updateProc, State.setList, State.unlock, hc]
  case schedule => split <;> simp
  case sleepUnlock lock _ _ => cases lock <;> simp
  case visit => split <;> simp
  case release k _ _ => cases k <;> simp [State.serve]

end

/-- A machine with one listed process; only CPU `0` has interrupts enabled. -/
def boot : State where
  pc _ := .user
  ie c := c = 0
  cur := .idle
  state _ := .runnable
  oncpu _ := none
  bed _ := 0
  kpid
    | .idle _ => 0
    | .other n => n + 1
  context _ := ⟨.release .forkret true, true⟩
  scheduler := 0
  lists _ := [0]
  lock := none
  intrflags := false
  locks _ := none
  acquired _ := 0
  released _ := 0
  version _ := 0
  seen _ _ := 0
  called _ _ := 0
  slept _ := none
  served _ _ := 0

theorem boot_init : Init boot :=
  ⟨fun _ => rfl, fun _ => rfl, fun _ => rfl, fun _ => ⟨_, rfl⟩, fun _ => ProcState.noConfusion,
    rfl, fun _ => rfl, fun _ => ⟨rfl, rfl⟩, fun _ _ => rfl, fun _ _ => rfl⟩

end AimKernel.Sched
