import AimKernel.Lib.Mutex

/-!
# AimKernel.Sync.Semaphore

Counting semaphores (`arch-sync.h`, the same code on both ports), over any number of CPUs.

`semaphore_dec` waits for a positive value without the lock, takes the lock, looks again, and
either counts down and returns or starts over; `semaphore_inc` does the same upwards, below the
limit. Each access to `val` is a step. The waiting loops run without the lock, and may see any
value that `val` has ever had; `past` keeps these for them.

Nothing rests on what the waiting loops have seen. The value is written by the owner of the
lock only, so that conservation is a matter of one CPU between `spin_lock` and `spin_unlock`
(`discipline`): the counts of completed calls are one behind while the new value is there and
the lock has not been given back. The value never leaves `0 .. limit`, so that its `int`
arithmetic does not overflow.
-/

namespace AimKernel.Semaphore

/-- The two routines. -/
inductive Op
  /-- `semaphore_dec`. -/
  | dec
  /-- `semaphore_inc`. -/
  | inc
  deriving Repr, DecidableEq

/-- Where a CPU is. -/
inductive Pc
  | outside
  /-- In the loop that waits without the lock. -/
  | poll (op : Op)
  /-- Before `spin_lock`. -/
  | lock (op : Op)
  /-- With the lock, before the second look at `val`. -/
  | test (op : Op)
  /-- Before the load of `val --` or `val ++`. -/
  | load (op : Op)
  /-- Before the store, with the value that was loaded. -/
  | store (op : Op) (val : Int)
  /-- Before `spin_unlock`, and then `return` or another round. -/
  | unlock (op : Op) (done : Bool)
  deriving Repr, DecidableEq

/-- `semaphore_t` without its lock, and the history: every value that `val` has had, and the
numbers of completed calls. -/
structure Sem where
  val : Int
  limit : Int
  past : List Int
  decs : Nat
  incs : Nat
  deriving Repr, DecidableEq

/-- May the routine proceed with this value? -/
def Op.ready (limit val : Int) : Op → Bool
  | .dec => 0 < val
  | .inc => val < limit

/-- The new value. -/
def Op.apply (val : Int) : Op → Int
  | .dec => val - 1
  | .inc => val + 1

/-- Write `val`. -/
def Sem.setVal (m : Sem) (val : Int) : Sem := { m with val := val, past := val :: m.past }

/-- The call has completed. -/
def Sem.complete (m : Sem) : Op → Sem
  | .dec => { m with decs := m.decs + 1 }
  | .inc => { m with incs := m.incs + 1 }

/-- `semaphore_init`, with no CPU near the semaphore. -/
def init {ι : Type} (val : Int) : Shared ι Pc Sem :=
  ⟨none, fun _ => .outside, ⟨val, val, [val], 0, 0⟩⟩

/-- The steps of a CPU. -/
inductive Routine {ι : Type} (c : ι) : LockOp → Pc × Sem → Pc × Sem → Prop
  | call (op : Op) (m : Sem) : Routine c .keep (.outside, m) (.poll op, m)
  | wait (op : Op) (m : Sem) (v : Int) (hv : v ∈ m.past) (hready : op.ready m.limit v = false) :
      Routine c .keep (.poll op, m) (.poll op, m)
  | pass (op : Op) (m : Sem) (v : Int) (hv : v ∈ m.past) (hready : op.ready m.limit v = true) :
      Routine c .keep (.poll op, m) (.lock op, m)
  | lock (op : Op) (m : Sem) : Routine c .acquire (.lock op, m) (.test op, m)
  | retry (op : Op) (m : Sem) (hready : op.ready m.limit m.val = false) :
      Routine c .keep (.test op, m) (.unlock op false, m)
  | proceed (op : Op) (m : Sem) (hready : op.ready m.limit m.val = true) :
      Routine c .keep (.test op, m) (.load op, m)
  | load (op : Op) (m : Sem) : Routine c .keep (.load op, m) (.store op m.val, m)
  | store (op : Op) (m : Sem) (v : Int) :
      Routine c .keep (.store op v, m) (.unlock op true, m.setVal (op.apply v))
  | again (op : Op) (m : Sem) : Routine c .release (.unlock op false, m) (.poll op, m)
  | done (op : Op) (m : Sem) : Routine c .release (.unlock op true, m) (.outside, m.complete op)

/-! ### Conservation -/

/-- The value is in range, and what is missing from it has been handed out. -/
structure Conserved (v : Int) (m : Sem) : Prop where
  limit : m.limit = v
  nonneg : 0 ≤ m.val
  le : m.val ≤ v
  balance : v - m.val = m.decs - m.incs

/-- No more decrements have completed than the increments and the initial value allow. -/
def Bounded (v : Int) (m : Sem) : Prop := (m.decs : Int) ≤ m.incs + v

/-- The owner of the lock: once it has written the value, the call is as good as completed. -/
def Owner (v : Int) : Pc → Sem → Prop
  | .test _, m => Conserved v m
  | .load op, m => Conserved v m ∧ op.ready v m.val = true
  | .store op x, m => Conserved v m ∧ op.ready v m.val = true ∧ x = m.val
  | .unlock _ false, m => Conserved v m
  | .unlock op true, m => Conserved v (m.complete op) ∧ Bounded v m
  | _, _ => False

/-- A CPU without the lock is not between `spin_lock` and `spin_unlock`. -/
def Without : Pc → Prop
  | .outside | .poll _ | .lock _ => True
  | _ => False

variable {v : Int} {m : Sem} {op : Op}

theorem init_conserved (hv : 0 ≤ v) : Conserved v ⟨v, v, [v], 0, 0⟩ where
  limit := rfl
  nonneg := hv
  le := Int.le_refl v
  balance := by simp

theorem Conserved.bounded (h : Conserved v m) : Bounded v m := by
  have hnonneg := h.nonneg
  have hbalance := h.balance
  unfold Bounded
  omega

theorem Conserved.apply (h : Conserved v m) (hready : op.ready v m.val = true) :
    Conserved v ((m.setVal (op.apply m.val)).complete op) := by
  obtain ⟨hlimit, hnonneg, hle, hbalance⟩ := h
  cases op with
  | dec =>
    have hpos : 0 < m.val := of_decide_eq_true hready
    refine ⟨hlimit, ?_, ?_, ?_⟩
    · change 0 ≤ m.val - 1
      omega
    · change m.val - 1 ≤ v
      omega
    · change v - (m.val - 1) = ((m.decs + 1 : Nat) : Int) - m.incs
      omega
  | inc =>
    have hlt : m.val < v := of_decide_eq_true hready
    refine ⟨hlimit, ?_, ?_, ?_⟩
    · change 0 ≤ m.val + 1
      omega
    · change m.val + 1 ≤ v
      omega
    · change v - (m.val + 1) = m.decs - ((m.incs + 1 : Nat) : Int)
      omega

/-- Whatever the waiting loops see, the value changes under the lock only, by one for each call
that completes. -/
theorem discipline {ι : Type} (v : Int) :
    Shared.Discipline (Routine (ι := ι)) (Conserved v) (fun _ => Owner v) fun _ => Without where
  outside := by
    intro c x y hout _ hstep
    cases hstep with
    | call op m => exact ⟨trivial, rfl⟩
    | wait op m u hu hready => exact ⟨trivial, rfl⟩
    | pass op m u hu hready => exact ⟨trivial, rfl⟩
    | retry op m hready => exact hout.elim
    | proceed op m hready => exact hout.elim
    | load op m => exact hout.elim
    | store op m u => exact hout.elim
  acquire := by
    intro c x y _ hfree hstep
    cases hstep with
    | lock op m => exact hfree
  no_release := by
    intro c x y hout _ hstep
    cases hstep with
    | again op m => exact hout
    | done op m => exact hout
  inside := by
    intro c x y hown hstep
    cases hstep with
    | call op m => exact hown.elim
    | wait op m u hu hready => exact hown.elim
    | pass op m u hu hready => exact hown.elim
    | retry op m hready => exact hown
    | proceed op m hready =>
      have hcons : Conserved v m := hown
      rw [hcons.limit] at hready
      exact ⟨hcons, hready⟩
    | load op m => exact ⟨hown.1, hown.2, rfl⟩
    | store op m u =>
      obtain ⟨hcons, hready, hu⟩ := hown
      change u = m.val at hu
      subst hu
      exact ⟨hcons.apply hready, hcons.bounded⟩
  release := by
    intro c x y hown hstep
    cases hstep with
    | again op m => exact ⟨trivial, hown⟩
    | done op m => exact ⟨trivial, hown.1⟩

theorem Owner.bounded {pc : Pc} (h : Owner v pc m) : Bounded v m := by
  cases pc with
  | outside => exact h.elim
  | poll op => exact h.elim
  | lock op => exact h.elim
  | test op => exact Conserved.bounded h
  | load op => exact h.1.bounded
  | store op u => exact h.1.bounded
  | unlock op done =>
    cases done with
    | false => exact Conserved.bounded h
    | true => exact h.2

/-- **Semaphores conserve their value.** For every initial value and any number of CPUs: while
the spin lock is free, `val` is between zero and `limit`, which is the initial value, and what
is missing from it are the completed decrements minus the completed increments. At no time have
more decrements completed than increments and the initial value allow, and no CPU outside the
two routines has the spin lock. -/
theorem semaphore_conserved {ι : Type} [DecidableEq ι] (hv : 0 ≤ v) {s : Shared ι Pc Sem}
    (hrun : Relation.ReflTransGen (Shared.Step Routine) (init v) s) :
    (s.lock = none → 0 ≤ s.mem.val ∧ s.mem.val ≤ s.mem.limit ∧ s.mem.limit = v ∧
        s.mem.limit - s.mem.val = s.mem.decs - s.mem.incs) ∧
      (s.mem.decs : Int) ≤ s.mem.incs + v ∧ ∀ c, s.pc c = .outside → s.lock ≠ some c := by
  have hinit : Shared.Inv (Conserved v) (fun _ => Owner v) (fun _ => Without)
      (init v : Shared ι Pc Sem) :=
    ⟨fun _ => init_conserved hv, fun c hc => absurd hc.symm (Option.some_ne_none c),
      fun _ _ => trivial⟩
  have hinv := hinit.run (discipline v) hrun
  refine ⟨fun hfree => ?_, ?_, ?_⟩
  · obtain ⟨hlimit, hnonneg, hle, hbalance⟩ := hinv.free hfree
    rw [hlimit]
    exact ⟨hnonneg, hle, rfl, hbalance⟩
  · cases hlock : s.lock with
    | none => exact (hinv.free hlock).bounded
    | some c => exact (hinv.owner c hlock).bounded
  · intro c hout hlock
    have hown := hinv.owner c hlock
    rw [hout] at hown
    exact hown

/-- The value is one, and two CPUs have seen it: one takes it and returns, and the other finds it
gone when it has the lock, and waits again. -/
theorem semaphore_conserved_two_decs : ∃ s : Shared (Fin 2) Pc Sem,
    Relation.ReflTransGen (Shared.Step Routine) (init 1) s ∧ s.pc 0 = .outside ∧
      s.pc 1 = .poll .dec ∧ s.lock = none ∧ s.mem.decs = 1 ∧
      s.mem.limit - s.mem.val = s.mem.decs - s.mem.incs := by
  have h₁ : Relation.ReflTransGen (Shared.Step Routine) (init 1 : Shared (Fin 2) Pc Sem) _ :=
    Shared.run_go .refl 0 (by decide) (.call .dec _)
  have h₂ := Shared.run_go h₁ 1 (by decide) (.call .dec _)
  have h₃ := Shared.run_go h₂ 0 (by decide) (.pass .dec _ 1 (by decide) rfl)
  have h₄ := Shared.run_go h₃ 1 (by decide) (.pass .dec _ 1 (by decide) rfl)
  have h₅ := Shared.run_take h₄ 0 rfl (.lock .dec _)
  have h₆ := Shared.run_go h₅ 0 (by decide) (.proceed .dec _ rfl)
  have h₇ := Shared.run_go h₆ 0 (by decide) (.load .dec _)
  have h₈ := Shared.run_go h₇ 0 (by decide) (.store .dec _ _)
  have h₉ := Shared.run_go h₈ 0 (by decide) (.done .dec _)
  have h₁₀ := Shared.run_take h₉ 1 rfl (.lock .dec _)
  have h₁₁ := Shared.run_go h₁₀ 1 (by decide) (.retry .dec _ rfl)
  have h₁₂ := Shared.run_go h₁₁ 1 (by decide) (.again .dec _)
  exact ⟨_, h₁₂, rfl, rfl, rfl, rfl, ((semaphore_conserved (by decide) h₁₂).1 rfl).2.2.2⟩

end AimKernel.Semaphore
