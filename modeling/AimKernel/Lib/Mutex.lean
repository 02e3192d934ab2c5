import Mathlib.Logic.Function.Basic
import Mathlib.Logic.Relation

/-!
# AimKernel.Lib.Mutex

CPUs that share memory and one lock.

Each CPU runs a program given by its single steps: a step leaves the lock alone, takes it or
gives it back. Any number of CPUs take their steps in any order; the lock is taken only while
it is free, which is all that is known about it.

`Discipline P J A B` reduces an invariant over all interleavings to what one CPU does:

* `J` holds of memory while the lock is free,
* `A` of the CPU that has the lock, of where it is and of memory, and
* `B` of where a CPU is that does not have the lock.

A CPU without the lock may read memory at any time and so see the owner halfway through its
work (`Foreign`); it must not write it and not give the lock back.
-/

namespace AimKernel

/-- What a step does to the lock. -/
inductive LockOp
  | keep
  | acquire
  | release
  deriving Repr, DecidableEq

/-- The lock, the CPUs and the memory they share. -/
structure Shared (ι π σ : Type) where
  lock : Option ι
  pc : ι → π
  mem : σ

namespace Shared

variable {ι π σ : Type} [DecidableEq ι]

/-- The steps of a program: of which CPU, what it does to the lock, and where the CPU and the
memory are before and after it. -/
abbrev Program (ι π σ : Type) := ι → LockOp → π × σ → π × σ → Prop

/-- The lock after a step of `c`. -/
def lockAfter (c : ι) (lock : Option ι) : LockOp → Option ι
  | .keep => lock
  | .acquire => some c
  | .release => none

/-- The state after a step of `c`. -/
def after (s : Shared ι π σ) (c : ι) (op : LockOp) (x : π × σ) : Shared ι π σ :=
  ⟨lockAfter c s.lock op, Function.update s.pc c x.1, x.2⟩

/-- Any CPU takes a step. -/
inductive Step (P : Program ι π σ) (s : Shared ι π σ) : Shared ι π σ → Prop
  | step (c : ι) (op : LockOp) (x : π × σ) (hfree : op = .acquire → s.lock = none)
      (hstep : P c op (s.pc c, s.mem) x) : Step P s (s.after c op x)

/-- A run goes on with a step that leaves the lock alone or gives it back, -/
theorem run_go {P : Program ι π σ} {s t : Shared ι π σ} (h : Relation.ReflTransGen (Step P) s t)
    (c : ι) {op : LockOp} {x : π × σ} (hop : op ≠ .acquire) (hstep : P c op (t.pc c, t.mem) x) :
    Relation.ReflTransGen (Step P) s (t.after c op x) :=
  h.tail (.step c op x (fun hacq => absurd hacq hop) hstep)

/-- or takes it. -/
theorem run_take {P : Program ι π σ} {s t : Shared ι π σ} (h : Relation.ReflTransGen (Step P) s t)
    (c : ι) {x : π × σ} (hfree : t.lock = none) (hstep : P c .acquire (t.pc c, t.mem) x) :
    Relation.ReflTransGen (Step P) s (t.after c .acquire x) :=
  h.tail (.step c .acquire x (fun _ => hfree) hstep)

/-- Memory as a CPU can see it that does not have the lock. -/
def Foreign (J : σ → Prop) (A : ι → π → σ → Prop) (c : ι) (m : σ) : Prop :=
  J m ∨ ∃ d, d ≠ c ∧ ∃ pc, A d pc m

/-- What each step of a program has to do. -/
structure Discipline (P : Program ι π σ) (J : σ → Prop) (A : ι → π → σ → Prop)
    (B : ι → π → Prop) : Prop where
  outside : ∀ {c x y}, B c x.1 → Foreign J A c x.2 → P c .keep x y → B c y.1 ∧ y.2 = x.2
  acquire : ∀ {c x y}, B c x.1 → J x.2 → P c .acquire x y → A c y.1 y.2
  no_release : ∀ {c x y}, B c x.1 → Foreign J A c x.2 → ¬ P c .release x y
  inside : ∀ {c x y}, A c x.1 x.2 → P c .keep x y → A c y.1 y.2
  release : ∀ {c x y}, A c x.1 x.2 → P c .release x y → B c y.1 ∧ J y.2

/-- The invariant of all CPUs together. -/
structure Inv (J : σ → Prop) (A : ι → π → σ → Prop) (B : ι → π → Prop) (s : Shared ι π σ) :
    Prop where
  free : s.lock = none → J s.mem
  owner : ∀ c, s.lock = some c → A c (s.pc c) s.mem
  others : ∀ c, s.lock ≠ some c → B c (s.pc c)

variable {P : Program ι π σ} {J : σ → Prop} {A : ι → π → σ → Prop} {B : ι → π → Prop}
  {s t : Shared ι π σ}

omit [DecidableEq ι] in
theorem Inv.foreign (h : Inv J A B s) {c : ι} (hc : s.lock ≠ some c) : Foreign J A c s.mem := by
  cases hlock : s.lock with
  | none => exact .inl (h.free hlock)
  | some d => exact .inr ⟨d, fun hdc => hc (hdc ▸ hlock), s.pc d, h.owner d hlock⟩

/-- After a step of `c` it is `c` that has to be looked at: the others are where they were, and
see the same memory unless `c` has the lock. -/
theorem Inv.of_move (h : Inv J A B s) {c : ι} {op : LockOp} {x : π × σ}
    (hfree : lockAfter c s.lock op = none → J x.2)
    (hown : lockAfter c s.lock op = some c → A c x.1 x.2)
    (hout : lockAfter c s.lock op ≠ some c → B c x.1)
    (hother : ∀ d, d ≠ c → lockAfter c s.lock op = some d → s.lock = some d ∧ x.2 = s.mem)
    (hleft : ∀ d, d ≠ c → lockAfter c s.lock op ≠ some d → s.lock ≠ some d) :
    Inv J A B (s.after c op x) := by
  refine ⟨hfree, fun d hd => ?_, fun d hd => ?_⟩
  · by_cases hdc : d = c
    · subst hdc
      rw [show (s.after d op x).pc d = x.1 from Function.update_self ..]
      exact hown hd
    · obtain ⟨hlock, hmem⟩ := hother d hdc hd
      rw [show (s.after c op x).pc d = s.pc d from Function.update_of_ne hdc ..]
      change A d (s.pc d) x.2
      rw [hmem]
      exact h.owner d hlock
  · by_cases hdc : d = c
    · subst hdc
      rw [show (s.after d op x).pc d = x.1 from Function.update_self ..]
      exact hout hd
    · rw [show (s.after c op x).pc d = s.pc d from Function.update_of_ne hdc ..]
      exact h.others d (hleft d hdc hd)

theorem Inv.step (D : Discipline P J A B) (h : Inv J A B s) (hstep : Step P s t) :
    Inv J A B t := by
  obtain ⟨c, op, x, hlocked, hp⟩ := hstep
  by_cases hc : s.lock = some c
  · -- a step of the owner
    have hA := h.owner c hc
    cases op with
    | acquire => exact absurd (hc.symm.trans (hlocked rfl)) (Option.some_ne_none c)
    | keep =>
      have hA' := D.inside hA hp
      apply h.of_move
      · exact fun hnone => absurd (hc.symm.trans hnone) (Option.some_ne_none c)
      · exact fun _ => hA'
      · exact fun hne => absurd hc hne
      · exact fun d hdc hd => absurd (Option.some.inj (hd.symm.trans hc)) hdc
      · exact fun d _ hd => hd
    | release =>
      obtain ⟨hB, hJ⟩ := D.release hA hp
      apply h.of_move
      · exact fun _ => hJ
      · exact fun hsome => absurd hsome.symm (Option.some_ne_none c)
      · exact fun _ => hB
      · exact fun d _ hd => absurd hd.symm (Option.some_ne_none d)
      · exact fun d hdc _ hd => hdc (Option.some.inj (hd.symm.trans hc))
  · have hB := h.others c hc
    have hforeign := h.foreign hc
    cases op with
    | keep =>
      obtain ⟨hB', hmem⟩ := D.outside hB hforeign hp
      apply h.of_move
      · intro hnone
        rw [hmem]
        exact h.free hnone
      · exact fun hsome => absurd hsome hc
      · exact fun _ => hB'
      · exact fun d _ hd => ⟨hd, hmem⟩
      · exact fun d _ hd => hd
    | acquire =>
      have hnone := hlocked rfl
      have hA := D.acquire hB (h.free hnone) hp
      apply h.of_move
      · exact fun hsome => absurd hsome (Option.some_ne_none c)
      · exact fun _ => hA
      · exact fun hne => absurd rfl hne
      · exact fun d hdc hd => absurd (Option.some.inj hd).symm hdc
      · intro d _ _ hd
        exact absurd (hd.symm.trans hnone) (Option.some_ne_none d)
    | release => exact absurd hp (D.no_release hB hforeign)

theorem Inv.run (D : Discipline P J A B) (h : Inv J A B s)
    (hrun : Relation.ReflTransGen (Step P) s t) : Inv J A B t := by
  induction hrun with
  | refl => exact h
  | tail _ hstep ih => exact ih.step D hstep

end Shared

end AimKernel
