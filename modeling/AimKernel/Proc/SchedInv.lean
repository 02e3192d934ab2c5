import AimKernel.Proc.Sched

/-!
# AimKernel.Proc.SchedInv

What holds in every run of the scheduler in which nobody calls `proc_next`.

`sched_lock` is held by a CPU exactly while its program counter is between the
acquisition and the release, although the two happen on different stacks: a suspended
process always resumes inside the critical section (`Inv.ready`), and one whose context
may still be stale is on the stack of some CPU (`State.stack`). That in turn needs the
book-keeping of `current_proc`, `state` and `oncpu` to be right (`Inv.onproc`), so the
two are proved together.
-/

namespace AimKernel.Sched

open Function (update update_of_ne update_self)

variable {s t : State} {c c' : Nat} {pc : Pc} {nested : Bool}
  {allowed : State → Nat → Call → Prop}

/-! ### Reading a program counter -/

/-- Between the acquisition of `sched_lock` and its release. -/
def Pc.critical : Pc → Bool
  | .user | .acquire _ _ | .restore _ _ | .relock _ => false
  | _ => true

/-- The process whose stack the CPU is on, which is not always `current_proc`. -/
def Pc.onStack (cur : ProcId) : Pc → Option ProcId
  | .saveRegs current _ _ => some current
  | .loadRegs _ => none
  | _ => some cur

/-- The process that is marked as running on the CPU. -/
def Pc.claimed (cur : ProcId) : Pc → Option ProcId
  | .pick _ _ | .update _ _ _ => none
  | .switchTo proc _ => some proc
  | _ => some cur

/-- All three. -/
def Pc.view (cur : ProcId) (pc : Pc) : Bool × Option ProcId × Option ProcId :=
  (pc.critical, pc.onStack cur, pc.claimed cur)

/-- An idle process is that of CPU `c`. -/
def ProcId.OfCpu (c : Nat) (p : ProcId) : Prop := ∀ c', p = .idle c' → c' = c

/-- Where a suspended process may resume. -/
def Pc.Ready : Pc → Prop
  | .release (.schedule _) _ | .release .forkret _ | .woken _ _ _ => True
  | _ => False

/-- What a program counter says about the CPU it belongs to. -/
def Pc.Local (c : Nat) (cur : ProcId) : Pc → Prop
  | .acquire k _ | .body k _ =>
    (∀ p, k ≠ .procNext p) ∧ k ≠ .forkret ∧ ∀ oldproc, k = .schedule oldproc → oldproc = cur
  | .update _ proc _ | .switchTo proc _ => proc.OfCpu c
  | .saveRegs _ proc _ | .loadRegs proc => proc = cur
  | _ => True

theorem Resume.ready (ret : Resume) : ret.pc.Ready := by
  cases ret <;> trivial

namespace Pc.Ready

theorem critical (h : pc.Ready) : pc.critical = true := by
  cases pc <;> first | rfl | exact h.elim

theorem claimed (h : pc.Ready) (p : ProcId) : pc.claimed p = some p := by
  cases pc <;> first | rfl | exact h.elim

theorem isLocal (h : pc.Ready) (p : ProcId) : pc.Local c p := by
  cases pc <;> trivial

end Pc.Ready

/-- Outside the critical section a CPU is on the stack of its current process, -/
theorem Pc.onStack_of_not_critical (h : pc.critical = false) (p : ProcId) :
    pc.onStack p = some p := by
  cases pc <;> first | rfl | exact Bool.noConfusion h

/-- and that process is marked as running there. -/
theorem Pc.claimed_of_not_critical (h : pc.critical = false) (p : ProcId) :
    pc.claimed p = some p := by
  cases pc <;> first | rfl | exact Bool.noConfusion h

/-- The process whose stack CPU `c` is on. Its context is not valid. -/
def State.stack (s : State) (c : Nat) : Option ProcId := (s.pc c).onStack (s.cur c)

/-! ### The invariant -/

/-- The state of the scheduler between any two steps. -/
structure Inv (s : State) : Prop where
  lock : ∀ c, s.lock = some c ↔ (s.pc c).critical = true
  here : ∀ c, (s.pc c).Local c (s.cur c)
  idle : ∀ c, (s.cur c).OfCpu c
  inj : ∀ c c', s.cur c = s.cur c' → c = c'
  onproc : ∀ c n, (s.pc c).claimed (s.cur c) = some (.other n) ↔
    s.state (.other n) = .onproc ∧ s.oncpu (.other n) = some c
  picked : ∀ c oldproc n flags, s.pc c = .update oldproc (.other n) flags →
    s.state (.other n) = .runnable
  ready : ∀ p, (∀ c, s.stack c ≠ some p) → (s.context p).pc.Ready

namespace Inv

variable {n : Nat} {flags : Bool} {ret : Resume} {proc : ProcId} {k : Call}

theorem of_init (h : Init s) : Inv s where
  lock c := by simp [h.lock, h.pc, Pc.critical]
  here c := by simp [h.pc, Pc.Local]
  idle c := by simp [h.cur, ProcId.OfCpu]
  inj c c' := by simp [h.cur]
  onproc c n := by simp [h.pc, h.cur, Pc.claimed, h.waiting n]
  picked c := by simp [h.pc]
  ready p hp := by
    cases p with
    | idle c => exact absurd (by simp [State.stack, h.pc, h.cur, Pc.onStack]) (hp c)
    | other n =>
      obtain ⟨flags, hnew⟩ := h.new n
      rw [hnew]
      trivial

/-- At most one CPU is in the critical section. -/
theorem not_critical (h : Inv s) (hc : (s.pc c).critical = true) (hne : c' ≠ c) :
    (s.pc c').critical = false := by
  rw [Bool.eq_false_iff]
  intro hc'
  have heq := ((h.lock c').mpr hc').symm.trans ((h.lock c).mpr hc)
  exact hne (Option.some.inj heq)

/-- The invariant reads only some of the fields. -/
theorem of_eq (h : Inv s) (hpc : t.pc = s.pc) (hcur : t.cur = s.cur) (hstate : t.state = s.state)
    (honcpu : t.oncpu = s.oncpu) (hcontext : t.context = s.context) (hlock : t.lock = s.lock) :
    Inv t := by
  cases t
  subst hpc hcur hstate honcpu hcontext hlock
  exact ⟨h.lock, h.here, h.idle, h.inj, h.onproc, h.picked, h.ready⟩

/-- A step takes CPU `c` to `pc`, with `q` its current process, and leaves the other CPUs
where they are. What it does to processes does not concern those: it neither marks nor
unmarks a process for another CPU. Then the invariant is to be shown for `c` only. -/
theorem of_move (h : Inv s) {q : ProcId} (hpc : t.pc c = pc) (hcur : t.cur c = q)
    (hpcs : ∀ c', c' ≠ c → t.pc c' = s.pc c') (hcurs : ∀ c', c' ≠ c → t.cur c' = s.cur c')
    (hmarks : ∀ c', c' ≠ c → ∀ n, t.state (.other n) = .onproc ∧ t.oncpu (.other n) = some c' ↔
      s.state (.other n) = .onproc ∧ s.oncpu (.other n) = some c')
    (hstable : ∀ c', c' ≠ c → (s.pc c').critical = true → t.state = s.state)
    (hlock : ∀ c', t.lock = some c' ↔ (t.pc c').critical = true)
    (hlocal : pc.Local c q) (hidle : q.OfCpu c) (hfresh : ∀ c', c' ≠ c → s.cur c' ≠ q)
    (honproc : ∀ n, pc.claimed q = some (.other n) ↔
      t.state (.other n) = .onproc ∧ t.oncpu (.other n) = some c)
    (hpicked : ∀ oldproc n flags, pc = .update oldproc (.other n) flags →
      t.state (.other n) = .runnable)
    (hready : ∀ p, (∀ c', t.stack c' ≠ some p) → (t.context p).pc.Ready) : Inv t := by
  subst hpc hcur
  constructor
  case lock => exact hlock
  case here =>
    intro c'
    by_cases hc : c' = c
    · rw [hc]
      exact hlocal
    · rw [hpcs c' hc, hcurs c' hc]
      exact h.here c'
  case idle =>
    intro c'
    by_cases hc : c' = c
    · rw [hc]
      exact hidle
    · rw [hcurs c' hc]
      exact h.idle c'
  case inj =>
    intro c1 c2 heq
    by_cases h1 : c1 = c
    · by_cases h2 : c2 = c
      · rw [h1, h2]
      · rw [h1, hcurs c2 h2] at heq
        exact absurd heq.symm (hfresh c2 h2)
    · by_cases h2 : c2 = c
      · rw [h2, hcurs c1 h1] at heq
        exact absurd heq (hfresh c1 h1)
      · rw [hcurs c1 h1, hcurs c2 h2] at heq
        exact h.inj c1 c2 heq
  case onproc =>
    intro c' n
    by_cases hc : c' = c
    · rw [hc]
      exact honproc n
    · rw [hpcs c' hc, hcurs c' hc, hmarks c' hc n]
      exact h.onproc c' n
  case picked =>
    intro c' oldproc n flags hupdate
    by_cases hc : c' = c
    · rw [hc] at hupdate
      exact hpicked oldproc n flags hupdate
    · rw [hpcs c' hc] at hupdate
      rw [hstable c' hc (by rw [hupdate]; rfl)]
      exact h.picked c' oldproc n flags hupdate
  case ready => exact hready

/-- While CPU `c` is in the critical section no step but its own changes marks, so that
nothing is to be shown about processes picked elsewhere. -/
theorem stable_of_critical (h : Inv s) (hheld : (s.pc c).critical = true) :
    ∀ c', c' ≠ c → (s.pc c').critical = true → t.state = s.state := by
  intro c' hc hcritical
  rw [h.not_critical hheld hc] at hcritical
  exact Bool.noConfusion hcritical

/-- Contexts stay valid when no CPU changes stacks. -/
theorem ready_of_stack (h : Inv s) (hcontext : t.context = s.context)
    (hstack : ∀ c', t.stack c' = s.stack c') (p : ProcId) (hp : ∀ c', t.stack c' ≠ some p) :
    (t.context p).pc.Ready := by
  rw [hcontext]
  refine h.ready p fun c' => ?_
  rw [← hstack]
  exact hp c'

theorem stack_goto (hstack : pc.onStack (s.cur c) = s.stack c) (c' : Nat) :
    (s.goto c pc).stack c' = s.stack c' := by
  by_cases hc : c' = c
  · subst hc
    simpa [State.stack, State.goto] using hstack
  · simp [State.stack, State.goto, hc]

theorem lock_goto (h : Inv s) (hcritical : pc.critical = (s.pc c).critical) (c' : Nat) :
    (s.goto c pc).lock = some c' ↔ ((s.goto c pc).pc c').critical = true := by
  by_cases hc : c' = c
  · subst hc
    simp [State.goto, hcritical, h.lock]
  · simp [State.goto, hc, h.lock]

/-- A CPU moves on; only the lock may change with it. -/
theorem move (h : Inv s) {lock : Option Nat}
    (hlock : ∀ c', lock = some c' ↔ ((s.goto c pc).pc c').critical = true)
    (hstack : pc.onStack (s.cur c) = s.stack c)
    (hclaimed : pc.claimed (s.cur c) = (s.pc c).claimed (s.cur c))
    (hlocal : pc.Local c (s.cur c))
    (hpicked : ∀ oldproc n flags, pc = .update oldproc (.other n) flags →
      s.state (.other n) = .runnable) :
    Inv { s.goto c pc with lock := lock } := by
  have honproc : ∀ n, pc.claimed (s.cur c) = some (.other n) ↔
      s.state (.other n) = .onproc ∧ s.oncpu (.other n) = some c := by
    intro n
    rw [hclaimed]
    exact h.onproc c n
  exact h.of_move (update_self ..) rfl (fun _ hc => update_of_ne hc ..)
    (fun _ _ => rfl) (fun _ _ _ => Iff.rfl) (fun _ _ _ => rfl) hlock hlocal (h.idle c)
    (fun c' hc heq => hc (h.inj c' c heq)) honproc hpicked
    (h.ready_of_stack rfl (stack_goto hstack))

/-- A CPU moves on from `x` without leaving or entering the critical section. -/
theorem goto (h : Inv s) {x : Pc} (pc : Pc) (hpc : s.pc c = x)
    (hview : ∀ p, pc.view p = x.view p) (hlocal : pc.Local c (s.cur c))
    (hpicked : ∀ oldproc n flags, pc = .update oldproc (.other n) flags →
      s.state (.other n) = .runnable) : Inv (s.goto c pc) := by
  subst hpc
  obtain ⟨hcritical, hstack, hclaimed⟩ := by
    simpa only [Pc.view, Prod.mk.injEq] using hview (s.cur c)
  exact h.move (h.lock_goto hcritical) hstack hclaimed hlocal hpicked

/-- The CPU in the critical section changes the marks of processes and moves on. -/
theorem mark (h : Inv s) {state : ProcId → ProcState} {oncpu : ProcId → Option Nat}
    (hheld : (s.pc c).critical = true) (hcritical : pc.critical = true)
    (hstack : pc.onStack (s.cur c) = s.stack c)
    (hlocal : pc.Local c (s.cur c)) (hupdate : ∀ oldproc q flags, pc ≠ .update oldproc q flags)
    (hmarks : ∀ c', c' ≠ c → ∀ n, state (.other n) = .onproc ∧ oncpu (.other n) = some c' ↔
      s.state (.other n) = .onproc ∧ s.oncpu (.other n) = some c')
    (honproc : ∀ n, pc.claimed (s.cur c) = some (.other n) ↔
      state (.other n) = .onproc ∧ oncpu (.other n) = some c) :
    Inv { s.goto c pc with state := state, oncpu := oncpu } :=
  h.of_move (update_self ..) rfl (fun _ hc => update_of_ne hc ..)
    (fun _ _ => rfl) hmarks (h.stable_of_critical hheld)
    (h.lock_goto (hcritical.trans hheld.symm)) hlocal (h.idle c)
    (fun c' hc heq => hc (h.inj c' c heq)) honproc
    (fun oldproc n flags heq => absurd heq (hupdate oldproc (.other n) flags))
    (h.ready_of_stack rfl (stack_goto hstack))

/-! ### The steps that change marks or stacks -/

/-- A process that another CPU runs is not marked by `c`, nor the other way round. -/
theorem not_marked (h : Inv s) (hheld : (s.pc c).critical = true) (hne : c' ≠ c)
    (hcur : s.cur c = .other n) :
    ¬ (s.state (.other n) = .onproc ∧ s.oncpu (.other n) = some c') := by
  rw [← h.onproc c' n, Pc.claimed_of_not_critical (h.not_critical hheld hne)]
  intro heq
  exact hne (h.inj c' c ((Option.some.inj heq).trans hcur.symm))

/-- The current process gives up the CPU: it is marked with `x`, and the CPU goes on to
claim no process that is not idle. -/
theorem unmark (h : Inv s) {x : ProcState} (hx : x ≠ .onproc) (hheld : (s.pc c).critical = true)
    (hmine : (s.pc c).claimed (s.cur c) = some (s.cur c)) (hcritical : pc.critical = true)
    (hstack : pc.onStack (s.cur c) = s.stack c)
    (hlocal : pc.Local c (s.cur c)) (hupdate : ∀ oldproc q flags, pc ≠ .update oldproc q flags)
    (hclaimed : ∀ n, pc.claimed (s.cur c) ≠ some (.other n)) :
    Inv ((s.setState (s.cur c) x).goto c pc) := by
  refine h.mark hheld hcritical hstack hlocal hupdate (fun c' hc n => ?_) fun n => ?_
  all_goals dsimp only [State.setState]
  · by_cases hn : ProcId.other n = s.cur c
    · rw [hn, update_self, ← hn]
      exact iff_of_false (fun hmarked => hx hmarked.1) (h.not_marked hheld hc hn.symm)
    · rw [update_of_ne hn]
  · refine iff_of_false (hclaimed n) ?_
    by_cases hn : ProcId.other n = s.cur c
    · rw [hn, update_self]
      exact fun hmarked => hx hmarked.1
    · rw [update_of_ne hn, ← h.onproc c n, hmine]
      exact fun heq => hn (Option.some.inj heq).symm

theorem updateProc (h : Inv s) {oldproc newproc : ProcId}
    (hpc : s.pc c = .update oldproc newproc flags) :
    Inv ((s.updateProc c newproc).goto c (.switchTo newproc ret)) := by
  have hlocal := h.here c
  rw [hpc] at hlocal
  have hstack : (Pc.switchTo newproc ret).onStack (s.cur c) = s.stack c := by
    rw [State.stack, hpc]
    rfl
  refine h.mark (by rw [hpc]; rfl) rfl hstack hlocal (fun _ _ _ => Pc.noConfusion)
    (fun c' hc n => ?_) fun n => ?_
  all_goals dsimp only [State.updateProc, State.setState]
  · by_cases hn : ProcId.other n = newproc
    · subst hn
      have hrunnable := h.picked c oldproc n flags hpc
      simp [hrunnable, Ne.symm hc]
    · rw [update_of_ne hn, update_of_ne hn]
  · by_cases hn : ProcId.other n = newproc
    · subst hn
      simp [Pc.claimed]
    · have hclaimed := h.onproc c n
      rw [hpc] at hclaimed
      rw [update_of_ne hn, update_of_ne hn, ← hclaimed]
      simpa [Pc.claimed] using Ne.symm hn

theorem wake (h : Inv s) {bed : Nat} {rest : List Nat} (hpc : s.pc c = .visit bed flags n rest)
    (hsleeping : s.state (.other n) = .sleeping) :
    Inv ((s.setState (.other n) .runnable).goto c (.walk bed flags rest)) := by
  have hstack : (Pc.walk bed flags rest).onStack (s.cur c) = s.stack c := by
    rw [State.stack, hpc]
    rfl
  have hsame : ∀ c' m,
      update s.state (.other n) .runnable (.other m) = .onproc ∧
        s.oncpu (.other m) = some c' ↔ s.state (.other m) = .onproc ∧
        s.oncpu (.other m) = some c' := by
    intro c' m
    by_cases hm : m = n
    · subst hm
      simp [hsleeping]
    · simp [hm]
  refine h.mark (by rw [hpc]; rfl) rfl hstack trivial (fun _ _ _ => Pc.noConfusion)
    (fun c' _ m => hsame c' m) fun m => ?_
  have hclaimed := h.onproc c m
  rw [hpc] at hclaimed
  exact hclaimed.trans (hsame c m).symm

/-- The first half of `switch_context`: the marked process becomes the current one. -/
theorem switchTo (h : Inv s) (hpc : s.pc c = .switchTo proc ret) :
    Inv { s.goto c (.saveRegs (s.cur c) proc ret) with
      cur := update s.cur c proc } := by
  have hheld : (s.pc c).critical = true := by rw [hpc]; rfl
  have hown := h.here c
  rw [hpc] at hown
  have hclaimed := h.onproc c
  rw [hpc] at hclaimed
  have hfresh : ∀ c', c' ≠ c → s.cur c' ≠ proc := by
    intro c' hc heq
    cases proc with
    | idle c'' => exact hc ((h.idle c' c'' heq).symm.trans (hown c'' rfl))
    | other n =>
      have hmine := (hclaimed n).mp rfl
      have hother := (h.onproc c' n).mp (by
        rw [Pc.claimed_of_not_critical (h.not_critical hheld hc), heq])
      exact hc (Option.some.inj (hother.2.symm.trans hmine.2))
  refine h.of_move (update_self ..) (update_self ..)
    (fun _ hc => update_of_ne hc ..) (fun _ hc => update_of_ne hc ..)
    (fun _ _ _ => Iff.rfl) (fun _ _ _ => rfl) (h.lock_goto hheld.symm) rfl hown hfresh hclaimed
    (fun _ _ _ => Pc.noConfusion) (h.ready_of_stack rfl fun c' => ?_)
  by_cases hc : c' = c
  · subst hc
    simp [State.stack, State.goto, hpc, Pc.onStack]
  · simp [State.stack, State.goto, hc]

/-- The stores of `switch_regs`: the context of the process that is left is valid. -/
theorem saveRegs (h : Inv s) {current : ProcId} {ie : Bool}
    (hpc : s.pc c = .saveRegs current proc ret) :
    Inv { s.goto c (.loadRegs proc) with
      context := update s.context current ⟨ret.pc, ie⟩ } := by
  have hheld : (s.pc c).critical = true := by rw [hpc]; rfl
  have hproc := h.here c
  rw [hpc] at hproc
  have hclaimed := h.onproc c
  rw [hpc] at hclaimed
  refine h.of_move (update_self ..) rfl (fun _ hc => update_of_ne hc ..)
    (fun _ _ => rfl) (fun _ _ _ => Iff.rfl) (fun _ _ _ => rfl) (h.lock_goto hheld.symm) hproc
    (h.idle c) (fun c' hc heq => hc (h.inj c' c heq)) hclaimed (fun _ _ _ => Pc.noConfusion)
    fun p hp => ?_
  by_cases hcurrent : p = current
  · subst hcurrent
    simpa using ret.ready
  · simp only [update_of_ne hcurrent]
    refine h.ready p fun c' heq => ?_
    by_cases hc : c' = c
    · subst hc
      rw [State.stack, hpc] at heq
      exact hcurrent (Option.some.inj heq).symm
    · refine hp c' ?_
      simpa [State.stack, State.goto, hc] using heq

/-- A CPU that is about to load a context loads one that has been saved. -/
theorem loads_saved (h : Inv s) (hpc : s.pc c = .loadRegs proc) (c' : Nat) :
    s.stack c' ≠ some proc := by
  have hproc := h.here c
  rw [hpc] at hproc
  intro heq
  by_cases hc : c' = c
  · subst hc
    rw [State.stack, hpc] at heq
    exact nomatch heq
  · have hout := h.not_critical (c := c) (by rw [hpc]; rfl) hc
    rw [State.stack, Pc.onStack_of_not_critical hout, show proc = s.cur c from hproc] at heq
    exact hc (h.inj c' c (Option.some.inj heq))

/-- The loads of `switch_regs`: the CPU resumes where the process had been suspended, in
the critical section. -/
theorem loadRegs (h : Inv s) (hpc : s.pc c = .loadRegs proc) :
    Inv (s.goto c (s.context proc).pc) := by
  have hheld : (s.pc c).critical = true := by rw [hpc]; rfl
  have hready := h.ready proc (h.loads_saved hpc)
  have hclaimed := h.onproc c
  rw [hpc] at hclaimed
  refine h.of_move (update_self ..) rfl (fun _ hc => update_of_ne hc ..)
    (fun _ _ => rfl) (fun _ _ _ => Iff.rfl) (fun _ _ _ => rfl)
    (h.lock_goto (hready.critical.trans hheld.symm)) (hready.isLocal _)
    (h.idle c) (fun c' hc heq => hc (h.inj c' c heq)) (fun n => ?_) (fun oldproc n flags heq => ?_)
    fun p hp => h.ready p fun c' heq => ?_
  · rw [hready.claimed]
    exact hclaimed n
  · rw [heq] at hready
    exact hready.elim
  · by_cases hc : c' = c
    · subst hc
      rw [State.stack, hpc] at heq
      exact nomatch heq
    · refine hp c' ?_
      simpa [State.stack, State.goto, hc] using heq

/-! ### Whole runs -/

theorem acquire (h : Inv s) (hpc : s.pc c = .acquire k flags) (hfree : s.lock = none)
    : Inv ((s.take c).goto c (.body k flags)) := by
  have hout : ∀ c', (s.pc c').critical = false := by
    intro c'
    rw [Bool.eq_false_iff, ne_eq, ← h.lock, hfree]
    exact fun heq => nomatch heq
  have hlocal := h.here c
  rw [hpc] at hlocal
  have hmove : Inv { s.goto c (.body k flags) with lock := some c } := by
    refine h.move (fun c' => ?_) (by rw [State.stack, hpc]; rfl) (by rw [hpc]; rfl) hlocal
      (fun _ _ _ => Pc.noConfusion)
    by_cases hc : c' = c
    · subst hc
      simp [State.goto, Pc.critical]
    · simp [State.goto, hc, hout, Ne.symm hc]
  exact hmove.of_eq rfl rfl rfl rfl rfl rfl

theorem release (h : Inv s) (hpc : s.pc c = .release k flags) :
    Inv (((s.drop c).serve c k).goto c (.restore k flags)) := by
  have hmove : Inv { s.goto c (.restore k flags) with lock := none } := by
    refine h.move (fun c' => ?_) (by rw [State.stack, hpc]; rfl) (by rw [hpc]; rfl) trivial
      (fun _ _ _ => Pc.noConfusion)
    by_cases hc : c' = c
    · subst hc
      simp [State.goto, Pc.critical]
    · simp [State.goto, hc, h.not_critical (c := c) (by rw [hpc]; rfl) hc]
  cases k <;> exact hmove.of_eq rfl rfl rfl rfl rfl rfl

theorem step (h : Inv s) (hallowed : ∀ s c k, allowed s c k → ∀ p, k ≠ .procNext p)
    (hstep : Step nested allowed c s t) : Inv t := by
  cases hstep with
  | call k hpc hk hnew hold =>
    exact (h.goto (.acquire k (s.ie c)) hpc (fun _ => rfl) ⟨hallowed s c k hk, hnew, hold⟩
      (fun _ _ _ => Pc.noConfusion)).of_eq rfl rfl rfl rfl rfl rfl
  | acquire k flags hpc hfree => exact h.acquire hpc hfree
  | schedule oldproc flags hpc hassert =>
    have hlocal := h.here c
    rw [hpc] at hlocal
    obtain rfl : oldproc = s.cur c := hlocal.2.2 oldproc rfl
    split
    next hrun =>
      exact h.unmark ProcState.noConfusion (by rw [hpc]; rfl) (by rw [hpc]; rfl) rfl
        (by rw [State.stack, hpc]; rfl) trivial (fun _ _ _ => Pc.noConfusion)
        (fun _ heq => nomatch heq)
    next hrun =>
      -- only an idle process can be current without being marked
      have hclaimed := h.onproc c
      rw [hpc] at hclaimed
      refine h.mark (by rw [hpc]; rfl) rfl (by rw [State.stack, hpc]; rfl) trivial
        (fun _ _ _ => Pc.noConfusion) (fun _ _ _ => Iff.rfl) fun n => ?_
      refine iff_of_false (fun heq => nomatch heq) fun hmarked => hrun ?_
      rw [Option.some.inj ((hclaimed n).mpr hmarked)]
      exact hmarked.1
  | panic oldproc flags hpc hassert =>
    exact h.goto .panicked hpc (fun _ => rfl) trivial (fun _ _ _ => Pc.noConfusion)
  | pickSome oldproc flags n hpc hlisted hrunnable =>
    refine h.goto (.update oldproc (.other n) flags) hpc (fun _ => rfl) (fun c' heq => nomatch heq)
      fun _ m _ heq => ?_
    cases heq
    exact hrunnable
  | pickNone oldproc flags hpc =>
    exact h.goto (.update oldproc (.idle c) flags) hpc (fun _ => rfl)
      (fun c' heq => (ProcId.idle.inj heq).symm) (fun _ _ _ heq => nomatch heq)
  | update oldproc newproc flags hpc => exact h.updateProc hpc
  | switchTo proc ret hpc => exact h.switchTo hpc
  | saveRegs current proc ret hpc => exact h.saveRegs hpc
  | loadRegs proc hpc => exact (h.loadRegs hpc).of_eq rfl rfl rfl rfl rfl rfl
  | sleepUnlock bed lock flags hpc =>
    have hgoto := h.goto (.setBed bed lock flags) hpc (fun _ => rfl)
      trivial (fun _ _ _ => Pc.noConfusion)
    cases lock <;> exact hgoto.of_eq rfl rfl rfl rfl rfl rfl
  | setBed bed lock flags hpc =>
    exact (h.goto (.setState bed lock flags) hpc (fun _ => rfl) trivial
      (fun _ _ _ => Pc.noConfusion)).of_eq rfl rfl rfl rfl rfl rfl
  | setState bed lock flags hpc =>
    have hunmark : Inv ((s.setState (s.cur c) .sleeping).goto c
        (.switchTo (.idle c) (.sleep bed lock flags))) :=
      h.unmark ProcState.noConfusion (by rw [hpc]; rfl) (by rw [hpc]; rfl) rfl
        (by rw [State.stack, hpc]; rfl) (fun c' heq => (ProcId.idle.inj heq).symm)
        (fun _ _ _ => Pc.noConfusion) (fun _ heq => nomatch heq)
    exact hunmark.of_eq rfl rfl rfl rfl rfl rfl
  | woken bed lock flags hpc =>
    exact (h.goto (.release (.sleepWithLock bed lock) flags) hpc (fun _ => rfl) trivial
      (fun _ _ _ => Pc.noConfusion)).of_eq rfl rfl rfl rfl rfl rfl
  | wakeup bed flags hpc =>
    exact h.goto (.walk bed flags s.listed) hpc (fun _ => rfl) trivial
      (fun _ _ _ => Pc.noConfusion)
  | fetch bed flags rest hmode hpc =>
    cases rest <;>
      exact h.goto _ hpc (fun _ => rfl) trivial (fun _ _ _ => Pc.noConfusion)
  | fetchSave bed flags rest hmode hpc =>
    exact (h.goto (.walkLock bed flags rest) hpc (fun _ => rfl) trivial
      (fun _ _ _ => Pc.noConfusion)).of_eq rfl rfl rfl rfl rfl rfl
  | fetchLock bed flags rest hpc hfree =>
    -- `wakeup` holds the lock `proc_next` waits for
    have hheld := (h.lock c).mpr (by rw [hpc]; rfl)
    exact nomatch hheld.symm.trans hfree
  | visit bed flags n rest hpc =>
    split
    next hsleeping => exact h.wake hpc hsleeping.2
    next =>
      exact h.goto (.walk bed flags rest) hpc (fun _ => rfl) trivial (fun _ _ _ => Pc.noConfusion)
  | procAdd n flags hpc =>
    exact (h.goto (.release (.procAdd n) flags) hpc (fun _ => rfl) trivial
      (fun _ _ _ => Pc.noConfusion)).of_eq rfl rfl rfl rfl rfl rfl
  | procRemove n flags hpc =>
    exact (h.goto (.release (.procRemove n) flags) hpc (fun _ => rfl) trivial
      (fun _ _ _ => Pc.noConfusion)).of_eq rfl rfl rfl rfl rfl rfl
  | setScheduler sch flags hpc =>
    exact (h.goto (.release (.setScheduler sch) flags) hpc (fun _ => rfl) trivial
      (fun _ _ _ => Pc.noConfusion)).of_eq rfl rfl rfl rfl rfl rfl
  | procNext proc flags hpc =>
    have hlocal := h.here c
    rw [hpc] at hlocal
    exact absurd rfl (hlocal.1 proc)
  | release k flags hpc => exact h.release hpc
  | restore k flags hpc =>
    have hgoto : Inv (s.goto c k.after) := by
      rcases k with _ | ⟨_, _ | _⟩ | _ | _ | _ | _ | _ | _ <;>
        exact h.goto _ hpc (fun _ => rfl) trivial (fun _ _ _ => Pc.noConfusion)
    exact hgoto.of_eq rfl rfl rfl rfl rfl rfl
  | relock l hpc hfree =>
    exact (h.goto .user hpc (fun _ => rfl) trivial
      (fun _ _ _ => Pc.noConfusion)).of_eq rfl rfl rfl rfl rfl rfl
  | userLock l hpc hfree => exact h.of_eq rfl rfl rfl rfl rfl rfl
  | userUnlock l hpc hheld => exact h.of_eq rfl rfl rfl rfl rfl rfl
  | change l hpc hheld => exact h.of_eq rfl rfl rfl rfl rfl rfl
  | setIe b hpc => exact h.of_eq rfl rfl rfl rfl rfl rfl

theorem run (h : Inv s) (hallowed : ∀ s c k, allowed s c k → ∀ p, k ≠ .procNext p)
    (hrun : Run nested allowed s t) : Inv t := by
  induction hrun with
  | refl => exact h
  | tail _ hstep ih =>
    obtain ⟨c, hstep⟩ := hstep
    exact ih.step hallowed hstep

end Inv

/-- Anything but a call of `proc_next`. -/
def NoProcNext (_ : State) (_ : Nat) (k : Call) : Prop := ∀ proc, k ≠ .procNext proc

/-- No process runs twice. Whatever calls other than `proc_next` are made on whatever CPUs:
outside the critical section a listed process is the current one of a CPU exactly if it is
marked as running there; no process is ever current on two CPUs; and the context a CPU
loads is that of a process on no CPU's stack, so that it has been saved. -/
theorem no_process_runs_twice (hinit : Init s) (hrun : Run nested NoProcNext s t) :
    (t.lock = none → ∀ n ∈ t.listed, ∀ c, t.cur c = .other n ↔
      t.state (.other n) = .onproc ∧ t.oncpu (.other n) = some c) ∧
    (∀ c c', t.cur c = t.cur c' → c = c') ∧
    ∀ c proc, t.pc c = .loadRegs proc → ∀ c', t.stack c' ≠ some proc := by
  have h := (Inv.of_init hinit).run (fun _ _ _ hk => hk) hrun
  refine ⟨fun hfree n _ c => ?_, h.inj, fun c proc hpc => h.loads_saved hpc⟩
  have hout : (t.pc c).critical = false := by
    rw [Bool.eq_false_iff, ne_eq, ← h.lock, hfree]
    exact fun heq => nomatch heq
  rw [← h.onproc c n, Pc.claimed_of_not_critical hout, Option.some.injEq]

/-- CPU `0` switches from its idle process to the listed one. -/
theorem no_process_runs_twice_boot :
    ∃ t, Run false NoProcNext boot t ∧ t.lock = none ∧ t.cur 0 = .other 0 ∧
      t.state (.other 0) = .onproc ∧ t.oncpu (.other 0) = some 0 := by
  have h₁ : Run false NoProcNext boot _ :=
    Run.step .refl 0 (.call (.schedule (.idle 0)) rfl (fun _ => Call.noConfusion)
      Call.noConfusion (fun _ h => (Call.schedule.inj h).symm))
  have h₂ := h₁.step 0 (.acquire _ _ rfl rfl)
  have h₃ := h₂.step 0 (.schedule _ _ rfl rfl)
  have h₄ := h₃.step 0 (.pickSome _ _ 0 rfl (by decide) rfl)
  have h₅ := h₄.step 0 (.update _ _ _ rfl)
  have h₆ := h₅.step 0 (.switchTo _ _ rfl)
  have h₇ := h₆.step 0 (.saveRegs _ _ _ rfl)
  have h₈ := h₇.step 0 (.loadRegs _ rfl)
  have h₉ := h₈.step 0 (.release _ _ rfl)
  obtain ⟨hmarks, -, -⟩ := no_process_runs_twice boot_init h₉
  exact ⟨_, h₉, rfl, rfl, (hmarks rfl 0 (by decide) 0).mp rfl⟩

end AimKernel.Sched
