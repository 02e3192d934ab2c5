import AimKernel.Proc.SchedInv

/-!
# AimKernel.Proc.SchedLock

The discipline of `sched_lock`.

Every call but two takes the lock once and releases it once, although the release may
happen on another stack, in `forkret`, or on another CPU's behalf. `proc_next` returns
from inside its critical section, and `wakeup` calls it inside its own.
-/

namespace AimKernel.Sched

variable {s t : State} {c c' : Nat} {pc : Pc} {nested : Bool}
  {allowed : State → Nat → Call → Prop}

/-- At a `spin_lock(&sched_lock)`. -/
def Pc.locking : Pc → Bool
  | .acquire _ _ | .walkLock _ _ _ => true
  | _ => false

/-- At a `spin_unlock(&sched_lock)`. -/
def Pc.unlocking : Pc → Bool
  | .release _ _ => true
  | _ => false

/-- Between two calls. -/
def Pc.returned : Pc → Bool
  | .user | .relock _ => true
  | _ => false

/-- In a call of `wakeup`. -/
def Pc.waking : Pc → Bool
  | .acquire (.wakeup _) _ | .body (.wakeup _) _ | .walk _ _ _ | .walkLock _ _ _ | .visit _ _ _ _ =>
    true
  | _ => false

/-- A bound on the steps a CPU makes before it releases the lock. -/
def Pc.remaining : Pc → Nat
  | .body _ _ => 8
  | .pick _ _ | .setBed _ _ _ => 7
  | .update _ _ _ | .setState _ _ _ => 6
  | .switchTo _ _ => 5
  | .saveRegs _ _ _ => 4
  | .loadRegs _ => 3
  | .woken _ _ _ => 2
  | .release _ _ => 1
  | _ => 0

/-- The lock discipline on CPU `c`: it is never at `spin_lock` with the lock held, it
holds it at `spin_unlock`, it does not hold it when a call has returned, and its releases
are as many as its acquisitions, up to the one going on. -/
structure Disciplined (s : State) (c : Nat) : Prop where
  locking : (s.pc c).locking = true → s.lock ≠ some c
  unlocking : (s.pc c).unlocking = true → s.lock = some c
  returned : (s.pc c).returned = true → s.lock ≠ some c
  counts : s.acquired c = s.released c + if s.lock = some c then 1 else 0

/-- `proc_next` and `wakeup` are not called. -/
def Quiet (_ : State) (_ : Nat) (k : Call) : Prop :=
  (∀ proc, k ≠ .procNext proc) ∧ ∀ bed, k ≠ .wakeup bed

/-! ### Counting -/

/-- The releases of every CPU are as many as its acquisitions, up to the one going on. -/
def Counted (s : State) : Prop :=
  ∀ c, s.acquired c = s.released c + if s.lock = some c then 1 else 0

theorem Counted.of_init (h : Init s) : Counted s := by
  intro c
  simp [h.counts, h.lock]

theorem Counted.take (h : Counted s) (hfree : s.lock = none) (c : Nat) : Counted (s.take c) := by
  intro c'
  have hcount := h c'
  by_cases hc : c' = c
  · subst hc
    simpa [State.take, hfree] using hcount
  · simpa [State.take, hfree, hc, Ne.symm hc] using hcount

theorem Counted.drop (h : Counted s) (hheld : s.lock = some c) : Counted (s.drop c) := by
  intro c'
  have hcount := h c'
  by_cases hc : c' = c
  · subst hc
    simpa [State.drop, hheld] using hcount
  · simpa [State.drop, hheld, hc, Ne.symm hc] using hcount

theorem Counted.step (h : Counted s) (hinv : Inv s) (hstep : Step nested allowed c s t) :
    Counted t := by
  cases hstep with
  | acquire k flags hpc hfree => exact h.take hfree c
  | fetchLock bed flags rest hpc hfree => exact h.take hfree c
  | release k flags hpc =>
    have hdrop := h.drop ((hinv.lock c).mpr (by rw [hpc]; rfl))
    cases k <;> exact hdrop
  | schedule oldproc flags hpc hassert => split <;> exact h
  | visit bed flags n rest hpc => split <;> exact h
  | sleepUnlock bed lock flags hpc => cases lock <;> exact h
  | _ => exact h

/-! ### Without `wakeup` -/

/-- No CPU is in a `wakeup`. -/
def Awake (s : State) : Prop := ∀ c, (s.pc c).waking = false

theorem Pc.Ready.not_waking (h : pc.Ready) : pc.waking = false := by
  cases pc <;> first | rfl | exact h.elim

theorem Awake.step (h : Awake s) (hinv : Inv s) (hstep : Step nested Quiet c s t) : Awake t := by
  intro c'
  by_cases hc : c' = c
  · subst hc
    have hnow := h c'
    cases hstep with
    | call k hpc hk _ _ =>
      simp only [State.goto, Function.update_self]
      cases k <;> first | rfl | exact absurd rfl (hk.2 _)
    | loadRegs proc hpc =>
      simp only [State.goto, Function.update_self]
      exact (hinv.ready proc (hinv.loads_saved hpc)).not_waking
    | acquire k flags hpc hfree =>
      rw [hpc] at hnow
      simp only [State.goto, Function.update_self]
      cases k <;> first | rfl | exact hnow
    | wakeup bed flags hpc | fetch bed flags rest hmode hpc | fetchSave bed flags rest hmode hpc
    | fetchLock bed flags rest hpc hfree | visit bed flags n rest hpc =>
      rw [hpc] at hnow
      exact Bool.noConfusion hnow
    | restore k flags hpc =>
      simp only [State.goto, Function.update_self]
      rcases k with _ | ⟨_, _ | _⟩ | _ | _ | _ | _ | _ | _ <;> rfl
    | userLock l hpc hfree | userUnlock l hpc hheld | change l hpc hheld | setIe b hpc =>
      exact hnow
    | _ => simp [State.goto, Pc.waking]
  · rw [(hstep.frame hc).1]
    exact h c'

/-- The CPU that holds the lock can always go on, unless the assertion stopped it. -/
theorem Inv.proceeds (h : Inv s) (hawake : Awake s) (hheld : s.lock = some c) :
    s.pc c = .panicked ∨ ∃ t, Step nested allowed c s t := by
  have hcritical := (h.lock c).mp hheld
  have hlocal := h.here c
  have hquiet := hawake c
  cases hpc : s.pc c with
  | user | acquire | restore | relock =>
    rw [hpc] at hcritical
    exact Bool.noConfusion hcritical
  | walk | walkLock | visit =>
    rw [hpc] at hquiet
    exact Bool.noConfusion hquiet
  | panicked => exact .inl rfl
  | body k flags =>
    rw [hpc] at hlocal hquiet
    right
    cases k with
    | schedule oldproc =>
      cases hassert : s.assertIdle c oldproc with
      | true => exact ⟨_, .schedule _ _ hpc hassert⟩
      | false => exact ⟨_, .panic _ _ hpc hassert⟩
    | sleepWithLock bed lock => exact ⟨_, .sleepUnlock _ _ _ hpc⟩
    | wakeup bed => exact Bool.noConfusion hquiet
    | procAdd n => exact ⟨_, .procAdd _ _ hpc⟩
    | procRemove n => exact ⟨_, .procRemove _ _ hpc⟩
    | procNext proc => exact ⟨_, .procNext _ _ hpc⟩
    | setScheduler sch => exact ⟨_, .setScheduler _ _ hpc⟩
    | forkret => exact absurd rfl hlocal.2.1
  | pick oldproc flags => exact .inr ⟨_, .pickNone _ _ hpc⟩
  | update oldproc newproc flags => exact .inr ⟨_, .update _ _ _ hpc⟩
  | setBed bed lock flags => exact .inr ⟨_, .setBed _ _ _ hpc⟩
  | setState bed lock flags => exact .inr ⟨_, .setState _ _ _ hpc⟩
  | switchTo proc ret => exact .inr ⟨_, .switchTo _ _ hpc⟩
  | saveRegs current proc ret => exact .inr ⟨_, .saveRegs _ _ _ hpc⟩
  | loadRegs proc => exact .inr ⟨_, .loadRegs _ hpc⟩
  | woken bed lock flags => exact .inr ⟨_, .woken _ _ _ hpc⟩
  | release k flags => exact .inr ⟨_, .release _ _ hpc⟩

/-- A suspended process is at most two steps from the release. -/
theorem Pc.Ready.remaining_le (h : pc.Ready) : pc.remaining ≤ 2 := by
  cases pc <;> first | exact h.elim | decide | exact Nat.le_succ _ | exact Nat.le_refl _

/-- Each of its steps brings the holder closer to the release. -/
theorem Inv.remaining_lt (h : Inv s) (hawake : Awake s) (hheld : s.lock = some c)
    (hstep : Step nested allowed c s t) :
    t.lock = none ∨ (t.pc c).remaining < (s.pc c).remaining := by
  have hcritical := (h.lock c).mp hheld
  have hquiet := hawake c
  cases hstep with
  | release k flags hpc => cases k <;> exact .inl rfl
  | loadRegs proc hpc =>
    right
    have hready := (h.ready proc (h.loads_saved hpc)).remaining_le
    simp only [State.goto, Function.update_self, hpc]
    exact Nat.lt_succ_of_le hready
  | call k hpc | acquire k flags hpc | restore k flags hpc | relock l hpc | userLock l hpc
  | userUnlock l hpc | change l hpc | setIe b hpc =>
    rw [hpc] at hcritical
    exact Bool.noConfusion hcritical
  | wakeup bed flags hpc | fetch bed flags rest hmode hpc | fetchSave bed flags rest hmode hpc
  | fetchLock bed flags rest hpc hfree | visit bed flags n rest hpc =>
    rw [hpc] at hquiet
    exact Bool.noConfusion hquiet
  | schedule oldproc flags hpc | panic oldproc flags hpc | pickSome oldproc flags n hpc
  | pickNone oldproc flags hpc | update oldproc newproc flags hpc | switchTo proc ret hpc
  | saveRegs current proc ret hpc | sleepUnlock bed lock flags hpc | setBed bed lock flags hpc
  | setState bed lock flags hpc | woken bed lock flags hpc | procAdd n flags hpc
  | procRemove n flags hpc | setScheduler sch flags hpc | procNext proc flags hpc =>
    right
    rw [hpc]
    simp [State.goto, Pc.remaining]

/-! ### Whole runs -/

theorem quiet_run (hinit : Init s) (hrun : Run nested Quiet s t) :
    Inv t ∧ Counted t ∧ Awake t := by
  induction hrun with
  | refl =>
    refine ⟨.of_init hinit, .of_init hinit, fun c => ?_⟩
    rw [hinit.pc c]
    rfl
  | tail _ hstep ih =>
    obtain ⟨c, hstep⟩ := hstep
    obtain ⟨hinv, hcounted, hawake⟩ := ih
    exact ⟨hinv.step (fun _ _ _ hk => hk.1) hstep, hcounted.step hinv hstep,
      hawake.step hinv hstep⟩

theorem Pc.critical_of_unlocking (h : pc.unlocking = true) : pc.critical = true := by
  cases pc <;> first | rfl | exact Bool.noConfusion h

theorem Pc.not_critical_of_returned (h : pc.returned = true) : pc.critical = false := by
  cases pc <;> first | rfl | exact Bool.noConfusion h

/-- Only `wakeup` takes the lock inside a critical section. -/
theorem Pc.not_critical_of_locking (h : pc.locking = true) (hwaking : pc.waking = false) :
    pc.critical = false := by
  cases pc <;> first | rfl | exact Bool.noConfusion h | exact Bool.noConfusion hwaking

theorem Inv.not_held (h : Inv s) (hout : (s.pc c).critical = false) : s.lock ≠ some c := by
  rw [ne_eq, h.lock, hout]
  exact Bool.noConfusion

/-- The discipline of `sched_lock` in every run in which neither `proc_next` nor `wakeup`
is called: no CPU waits for the lock it holds, every acquisition is released once, no call
returns with the lock held. Moreover the holder is never stuck, short of a failed
assertion, and each step brings it closer to the release. -/
theorem sched_lock_discipline (hinit : Init s) (hrun : Run true Quiet s t) (c : Nat) :
    Disciplined t c ∧
      (t.lock = some c → t.pc c = .panicked ∨
        (∃ u, Step true Quiet c t u) ∧ ∀ u, Step true Quiet c t u →
          u.lock = none ∨ (u.pc c).remaining < (t.pc c).remaining) := by
  obtain ⟨hinv, hcounted, hawake⟩ := quiet_run hinit hrun
  refine ⟨⟨fun hat => ?_, fun hat => ?_, fun hat => ?_, hcounted c⟩, fun hheld => ?_⟩
  · exact hinv.not_held (Pc.not_critical_of_locking hat (hawake c))
  · exact (hinv.lock c).mpr (Pc.critical_of_unlocking hat)
  · exact hinv.not_held (Pc.not_critical_of_returned hat)
  · refine (hinv.proceeds hawake hheld).imp_right fun hstep => ⟨hstep, fun u => ?_⟩
    exact hinv.remaining_lt hawake hheld

/-- CPU `0` switches from its idle process to the listed one, which releases the lock, while
CPU `1` waits for it in `proc_add`; then CPU `1` has it and can go on. -/
theorem sched_lock_discipline_switch :
    ∃ t, Run true Quiet boot t ∧ t.cur 0 = .other 0 ∧ t.released 0 = 1 ∧ t.lock = some 1 ∧
      Disciplined t 0 ∧ Disciplined t 1 ∧ ∃ u, Step true Quiet 1 t u := by
  have h₁ : Run true Quiet boot _ :=
    Run.step .refl 0 (.call (.schedule (.idle 0)) rfl
      ⟨fun _ => Call.noConfusion, fun _ => Call.noConfusion⟩ Call.noConfusion
      (fun _ h => (Call.schedule.inj h).symm))
  have h₂ := h₁.step 0 (.acquire _ _ rfl rfl)
  have h₃ := h₂.step 1 (.call (.procAdd 1) rfl
    ⟨fun _ => Call.noConfusion, fun _ => Call.noConfusion⟩ Call.noConfusion
    (fun _ => Call.noConfusion))
  have h₄ := h₃.step 0 (.schedule _ _ rfl rfl)
  have h₅ := h₄.step 0 (.pickSome _ _ 0 rfl (by decide) rfl)
  have h₆ := h₅.step 0 (.update _ _ _ rfl)
  have h₇ := h₆.step 0 (.switchTo _ _ rfl)
  have h₈ := h₇.step 0 (.saveRegs _ _ _ rfl)
  have h₉ := h₈.step 0 (.loadRegs _ rfl)
  have h₁₀ := h₉.step 0 (.release _ _ rfl)
  have h₁₁ := h₁₀.step 1 (.acquire _ _ rfl rfl)
  have hone := sched_lock_discipline boot_init h₁₁ 1
  refine ⟨_, h₁₁, rfl, rfl, rfl, (sched_lock_discipline boot_init h₁₁ 0).1, hone.1, ?_⟩
  exact ((hone.2 rfl).resolve_left (by simp [State.goto])).1

/-- `proc_next` returns with the lock held; `wakeup` gets to a `spin_lock` of the lock it
holds. -/
theorem sched_lock_kept :
    (∃ t, Run true (fun _ _ _ => True) boot t ∧ t.pc 0 = .user ∧ t.lock = some 0) ∧
      ∃ t, Run true (fun _ _ _ => True) boot t ∧ (t.pc 0).locking = true ∧ t.lock = some 0 := by
  constructor
  · have h₁ : Run true (fun _ _ _ => True) boot _ :=
      Run.step .refl 0 (.call (.procNext none) rfl trivial Call.noConfusion
        (fun _ => Call.noConfusion))
    have h₂ := h₁.step 0 (.acquire _ _ rfl rfl)
    have h₃ := h₂.step 0 (.procNext _ _ rfl)
    exact ⟨_, h₃, rfl, rfl⟩
  · have h₁ : Run true (fun _ _ _ => True) boot _ :=
      Run.step .refl 0 (.call (.wakeup 1) rfl trivial Call.noConfusion (fun _ => Call.noConfusion))
    have h₂ := h₁.step 0 (.acquire _ _ rfl rfl)
    have h₃ := h₂.step 0 (.wakeup _ _ rfl)
    have h₄ := h₃.step 0 (.fetchSave _ _ _ rfl rfl)
    exact ⟨_, h₄, rfl, rfl⟩

end AimKernel.Sched
