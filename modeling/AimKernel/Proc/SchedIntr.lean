import AimKernel.Proc.SchedLock

/-!
# AimKernel.Proc.SchedIntr

Interrupt state across the critical sections of `schedule`, `proc_add`, `proc_remove` and
`set_scheduler`.

All of them save their flags in the one variable `__sched_intrflags`, before they have the
lock. A value saved there is restored by whoever leaves the critical section next, so it
survives only as long as every entry saves the same value.
-/

namespace AimKernel.Sched

variable {s t : State} {c c' : Nat} {pc : Pc} {nested flag : Bool}

/-- The calls that save their flags in `__sched_intrflags` and return. -/
def Call.saves : Call → Bool
  | .schedule _ | .procAdd _ | .procRemove _ | .setScheduler _ => true
  | _ => false

/-- The flags found at entry by the `schedule` that was suspended. -/
def Resume.entry : Resume → Option Bool
  | .schedule _ flags => some flags
  | .sleep _ _ _ => none

/-- The flags found at entry by the call going on, if they are in `__sched_intrflags`. -/
def Pc.entry : Pc → Option Bool
  | .acquire k flags | .body k flags | .release k flags | .restore k flags =>
    if k.saves then some flags else none
  | .pick _ flags | .update _ _ flags => some flags
  | .switchTo _ ret | .saveRegs _ _ ret => ret.entry
  | _ => none

theorem Resume.entry_pc (ret : Resume) : ret.pc.entry = ret.entry := by
  cases ret <;> rfl

/-- Some call is going on, on a CPU or in a suspended process, that found these flags at
entry. -/
def Outstanding (s : State) (flag : Bool) : Prop :=
  (∃ c, (s.pc c).entry = some flag) ∨
    ∃ p, (∀ c, s.stack c ≠ some p) ∧ (s.context p).pc.entry = some flag

/-- The four calls, -/
def Saving (_ : State) (_ : Nat) (k : Call) : Prop := k.saves = true

/-- entered with the interrupt state that every call going on was entered with. -/
def SameFlags (s : State) (c : Nat) (k : Call) : Prop :=
  k.saves = true ∧ ∀ flag, Outstanding s flag → flag = s.ie c

theorem SameFlags.quiet {k : Call} (h : SameFlags s c k) : Quiet s c k := by
  refine ⟨fun proc hk => ?_, fun bed hk => ?_⟩
  all_goals
    rw [SameFlags, hk] at h
    exact Bool.noConfusion h.1

/-- The first half of `switch_regs` saves a context, the second loads one. Every other step
leaves contexts and stacks alone; a call it finds going on after it was going on before,
or has just been entered. -/
theorem Step.kinds (hstep : Step nested SameFlags c s t) :
    (∃ current proc ret, s.pc c = .saveRegs current proc ret ∧ t.pc c = .loadRegs proc ∧
      t.context = Function.update s.context current ⟨ret.pc, s.ie c⟩) ∨
    (∃ proc, s.pc c = .loadRegs proc ∧ t.pc c = (s.context proc).pc ∧ t.context = s.context) ∨
    t.context = s.context ∧ t.stack c = s.stack c ∧ ∀ flag, (t.pc c).entry = some flag →
      (s.pc c).entry = some flag ∨ t.intrflags = flag := by
  cases hstep with
  | saveRegs current proc ret hpc =>
    exact .inl ⟨current, proc, ret, hpc, Function.update_self .., rfl⟩
  | loadRegs proc hpc => exact .inr (.inl ⟨proc, hpc, Function.update_self .., rfl⟩)
  | call k hpc hallowed hk hold =>
    refine .inr (.inr ⟨rfl, by simp [State.stack, State.goto, State.irqSave, hpc, Pc.onStack],
      fun flag hentry => ?_⟩)
    cases k <;> simp_all [State.goto, Pc.entry, Call.saves, Call.global]
  | sleepUnlock bed lock flags hpc =>
    refine .inr (.inr ?_)
    cases lock <;> simp [State.stack, State.goto, State.unlock, hpc, Pc.onStack, Pc.entry]
  | schedule oldproc flags hpc hassert =>
    refine .inr (.inr ?_)
    split <;>
      simp +contextual [State.stack, State.goto, State.setState, hpc, Pc.onStack, Pc.entry,
        Call.saves]
  | visit bed flags n rest hpc =>
    refine .inr (.inr ?_)
    split <;> simp [State.stack, State.goto, State.setState, hpc, Pc.onStack, Pc.entry]
  | fetch bed flags rest hmode hpc | fetchLock bed flags rest hpc hfree =>
    refine .inr (.inr ?_)
    cases rest <;>
      simp [State.stack, State.goto, State.take, fetched, hpc, Pc.onStack, Pc.entry, Call.saves]
  | release k flags hpc =>
    refine .inr (.inr ?_)
    cases k <;>
      simp +contextual [State.stack, State.goto, State.drop, State.serve, hpc, Pc.onStack,
        Pc.entry, Call.saves]
  | restore k flags hpc =>
    refine .inr (.inr ?_)
    rcases k with _ | ⟨_, _ | _⟩ | _ | _ | _ | _ | _ | _ <;>
      simp [State.stack, State.goto, Call.after, hpc, Pc.onStack, Pc.entry]
  | userUnlock l hpc hheld | userLock l hpc hfree | change l hpc hheld | setIe b hpc =>
    refine .inr (.inr ?_)
    simp [State.stack, State.unlock, State.grab, State.change, hpc, Pc.onStack, Pc.entry]
  | acquire k flags hpc hfree | panic oldproc flags hpc hassert
  | pickSome oldproc flags n hpc hlisted hrunnable | pickNone oldproc flags hpc
  | update oldproc newproc flags hpc | switchTo proc ret hpc | setBed bed lock flags hpc
  | setState bed lock flags hpc | woken bed lock flags hpc | wakeup bed flags hpc
  | fetchSave bed flags rest hmode hpc | procAdd n flags hpc | procRemove n flags hpc
  | setScheduler sch flags hpc | procNext proc flags hpc | relock l hpc hfree =>
    refine .inr (.inr ?_)
    simp +contextual [State.stack, State.goto, State.take, State.updateProc, State.setState,
      State.setBed, State.irqSave, State.setList, State.grab, hpc, Pc.onStack, Pc.entry,
      Resume.entry, Call.saves]

theorem Step.off_stacks (hstep : Step nested SameFlags c s t) {p : ProcId}
    (hp : ∀ c', t.stack c' ≠ some p) (hc : s.stack c ≠ some p) (c' : Nat) :
    s.stack c' ≠ some p := by
  by_cases hne : c' = c
  · rw [hne]
    exact hc
  · have hframe := hstep.frame hne
    rw [State.stack, ← hframe.1, ← hframe.2.1]
    exact hp c'

/-- A call that goes on after a step went on before it, in another place perhaps; or it
has just been entered. -/
theorem Outstanding.of_step (hinv : Inv s) (hstep : Step nested SameFlags c s t)
    (h : Outstanding t flag) : Outstanding s flag ∨ t.intrflags = flag := by
  rcases h with ⟨c', hentry⟩ | ⟨p, hp, hentry⟩
  · by_cases hc : c' = c
    · subst hc
      rcases hstep.kinds with
        ⟨current, proc, ret, hpc, hpc', -⟩ | ⟨proc, hpc, hpc', -⟩ | ⟨-, -, hgoes⟩
      · rw [hpc'] at hentry
        cases hentry
      · -- the call of the process that is being resumed
        rw [hpc'] at hentry
        exact .inl (.inr ⟨proc, hinv.loads_saved hpc, hentry⟩)
      · exact (hgoes flag hentry).imp_left fun hbefore => .inl ⟨c', hbefore⟩
    · rw [(hstep.frame hc).1] at hentry
      exact .inl (.inl ⟨c', hentry⟩)
  · left
    rcases hstep.kinds with
      ⟨current, proc, ret, hpc, -, hcontext⟩ | ⟨proc, hpc, -, hcontext⟩ | ⟨hcontext, hstack, -⟩
    · by_cases hcurrent : p = current
      · -- the call of the process that has been suspended
        subst hcurrent
        rw [hcontext, Function.update_self, Resume.entry_pc] at hentry
        exact .inl ⟨c, by rw [hpc]; exact hentry⟩
      · rw [hcontext, Function.update_of_ne hcurrent] at hentry
        refine .inr ⟨p, hstep.off_stacks hp ?_, hentry⟩
        rw [State.stack, hpc]
        exact fun heq => hcurrent (Option.some.inj heq).symm
    · rw [hcontext] at hentry
      refine .inr ⟨p, hstep.off_stacks hp ?_, hentry⟩
      rw [State.stack, hpc]
      exact fun heq => by cases heq
    · rw [hcontext] at hentry
      refine .inr ⟨p, hstep.off_stacks hp ?_, hentry⟩
      rw [← hstack]
      exact hp c

/-- Only an entry writes `__sched_intrflags`. -/
theorem Step.intrflags (hawake : Awake s) (hstep : Step nested SameFlags c s t) :
    t.intrflags = s.intrflags ∨
      t.intrflags = s.ie c ∧ ∀ flag, Outstanding s flag → flag = s.ie c := by
  cases hstep with
  | call k hpc hallowed hk hold =>
    refine .inr ⟨?_, hallowed.2⟩
    have hsaves := hallowed.1
    cases k <;> first | rfl | exact Bool.noConfusion hsaves
  | fetchSave bed flags rest hmode hpc =>
    have hquiet := hawake c
    rw [hpc] at hquiet
    exact Bool.noConfusion hquiet
  | schedule oldproc flags hpc hassert => left; split <;> rfl
  | visit bed flags n rest hpc => left; split <;> rfl
  | sleepUnlock bed lock flags hpc => left; cases lock <;> rfl
  | release k flags hpc => left; cases k <;> rfl
  | _ => exact .inl rfl

/-- What every call going on found at entry is in `__sched_intrflags`. -/
theorem outstanding_run (hinit : Init s) (hrun : Run nested SameFlags s t) :
    ∀ flag, Outstanding t flag → flag = t.intrflags := by
  induction hrun with
  | refl =>
    rintro flag (⟨c, hentry⟩ | ⟨p, hp, hentry⟩)
    · rw [hinit.pc c] at hentry
      cases hentry
    · cases p with
      | idle c => exact absurd (by simp [State.stack, hinit.pc, hinit.cur, Pc.onStack]) (hp c)
      | other n =>
        obtain ⟨flags, hnew⟩ := hinit.new n
        rw [hnew] at hentry
        cases hentry
  | tail hrun hstep ih =>
    obtain ⟨c, hstep⟩ := hstep
    obtain ⟨hinv, -, hawake⟩ := quiet_run hinit (Run.mono hrun fun _ _ _ hk => hk.quiet)
    intro flag hout
    rcases hout.of_step hinv hstep with hbefore | hnew
    · rcases hstep.intrflags hawake with hsame | ⟨hsaved, hall⟩
      · rw [hsame]
        exact ih flag hbefore
      · rw [hsaved]
        exact hall flag hbefore
    · exact hnew.symm

theorem Step.of_restore {allowed : State → Nat → Call → Prop} {k : Call} {flags : Bool}
    (hstep : Step nested allowed c s t) (hpc : s.pc c = .restore k flags) :
    t.pc c = k.after ∧ t.ie c = if k.global then s.intrflags else flags := by
  cases hstep <;> simp_all [State.goto]

/-- Interrupt state is preserved in every run in which each of the four calls is entered
with the interrupt state all calls going on were entered with: what a call will restore is
what it found at entry, and it returns with the interrupt-enable bit of the CPU set to
that. -/
theorem interrupt_state_preserved (hinit : Init s) (hrun : Run nested SameFlags s t) :
    (∀ flag, Outstanding t flag → flag = t.intrflags) ∧
      ∀ c k flags u, t.pc c = .restore k flags → k.saves = true →
        Step nested SameFlags c t u → u.pc c = .user ∧ u.ie c = flags := by
  have hkept := outstanding_run hinit hrun
  refine ⟨hkept, fun c k flags u hpc hsaves hstep => ?_⟩
  have hflags : flags = t.intrflags := by
    refine hkept flags (.inl ⟨c, ?_⟩)
    rw [hpc]
    simp [Pc.entry, hsaves]
  obtain ⟨hafter, hie⟩ := hstep.of_restore hpc
  rw [hafter, hie, hflags]
  cases k <;> first | exact ⟨rfl, rfl⟩ | exact Bool.noConfusion hsaves

/-- CPU `0` calls `schedule` in its idle process and switches to the listed one. While the idle
process is suspended CPU `1` calls `proc_add`, and the listed process calls `schedule` in turn; the
call of the idle process restores what it found. -/
theorem interrupt_state_preserved_switch :
    ∃ t u, Run false SameFlags boot t ∧ t.pc 0 = .restore (.schedule (.idle 0)) true ∧
      t.acquired 0 = 2 ∧ t.acquired 1 = 1 ∧ Step false SameFlags 0 t u ∧ u.ie 0 = true := by
  have hsame : ∀ {t c k}, Run false SameFlags boot t → t.intrflags = t.ie c → k.saves = true →
      SameFlags t c k := fun hrun hie hk =>
    ⟨hk, fun flag h => (outstanding_run boot_init hrun flag h).trans hie⟩
  have hnone : ∀ flag, ¬ Outstanding boot flag := by
    rintro flag (⟨c, hentry⟩ | ⟨p, -, hentry⟩) <;> cases hentry
  have h₁ : Run false SameFlags boot _ :=
    Run.step .refl 0 (.call (.schedule (.idle 0)) rfl ⟨rfl, fun flag h => absurd h (hnone flag)⟩
      Call.noConfusion (fun _ h => (Call.schedule.inj h).symm))
  have h₂ := h₁.step 0 (.acquire _ _ rfl rfl)
  have h₃ := h₂.step 0 (.schedule _ _ rfl rfl)
  have h₄ := h₃.step 0 (.pickSome _ _ 0 rfl (by decide) rfl)
  have h₅ := h₄.step 0 (.update _ _ _ rfl)
  have h₆ := h₅.step 0 (.switchTo _ _ rfl)
  have h₇ := h₆.step 0 (.saveRegs _ _ _ rfl)
  have h₈ := h₇.step 0 (.loadRegs _ rfl)
  have h₉ := h₈.step 0 (.release _ _ rfl)
  have h₁₀ := h₉.step 0 (.restore _ _ rfl)
  -- both CPUs call, with interrupts enabled
  have h₁₁ := h₁₀.step 1 (.setIe true rfl)
  have h₁₂ := h₁₁.step 1 (.call (.procAdd 1) rfl (hsame h₁₁ rfl rfl) Call.noConfusion
    (fun _ => Call.noConfusion))
  have h₁₃ := h₁₂.step 1 (.acquire _ _ rfl rfl)
  have h₁₄ := h₁₃.step 0 (.call (.schedule (.other 0)) rfl (hsame h₁₃ rfl rfl) Call.noConfusion
    (fun _ h => (Call.schedule.inj h).symm))
  have h₁₅ := h₁₄.step 1 (.procAdd _ _ rfl)
  have h₁₆ := h₁₅.step 1 (.release _ _ rfl)
  -- CPU 0 switches back to its idle process
  have h₁₇ := h₁₆.step 0 (.acquire _ _ rfl rfl)
  have h₁₈ := h₁₇.step 0 (.schedule _ _ rfl rfl)
  have h₁₉ := h₁₈.step 0 (.pickNone _ _ rfl)
  have h₂₀ := h₁₉.step 0 (.update _ _ _ rfl)
  have h₂₁ := h₂₀.step 0 (.switchTo _ _ rfl)
  have h₂₂ := h₂₁.step 0 (.saveRegs _ _ _ rfl)
  have h₂₃ := h₂₂.step 0 (.loadRegs _ rfl)
  have h₂₄ := h₂₃.step 0 (.release _ _ rfl)
  refine ⟨_, _, h₂₄, rfl, rfl, rfl, .restore _ _ rfl, ?_⟩
  exact ((interrupt_state_preserved boot_init h₂₄).2 0 _ _ _ rfl rfl (.restore _ _ rfl)).2

/-- With interrupts enabled, CPU `0` calls `proc_add`; before it leaves the critical
section, CPU `1` enters with interrupts disabled; CPU `0` returns with interrupts
disabled. -/
theorem interrupt_state_lost :
    ∃ t u, Run false Saving boot t ∧ t.pc 0 = .restore (.procAdd 1) true ∧
      Step false Saving 0 t u ∧ u.pc 0 = .user ∧ u.ie 0 = false := by
  have h₁ : Run false Saving boot _ :=
    Run.step .refl 0 (.call (.procAdd 1) rfl rfl Call.noConfusion (fun _ => Call.noConfusion))
  have h₂ := h₁.step 0 (.acquire _ _ rfl rfl)
  have h₃ := h₂.step 1 (.call (.procAdd 2) rfl rfl Call.noConfusion (fun _ => Call.noConfusion))
  have h₄ := h₃.step 0 (.procAdd _ _ rfl)
  have h₅ := h₄.step 0 (.release _ _ rfl)
  exact ⟨_, _, h₅, rfl, .restore _ _ rfl, rfl, rfl⟩

end AimKernel.Sched
