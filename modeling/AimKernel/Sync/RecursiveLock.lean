import AimKernel.Lib.Mutex
import Mathlib.Algebra.Group.Int.Defs
import Mathlib.Algebra.Group.Nat.Defs

/-!
# AimKernel.Sync.RecursiveLock

Recursive spin locks (`sync.h`), over any number of CPUs.

`recursive_lock` reads `holder` without the lock, to tell whether it is the CPU itself that has
it; `recursive_unlock` clears `holder` before it gives the lock back. Each access to `holder`
and `depth` is a step. A CPU that does not have the lock never finds its own number in
`holder`, whatever the owner is doing at the moment (`foreign_holder`), and so never takes the
lock for its own; everything else is a matter of the owner alone (`discipline`).

`depth` is an `int`. What is proved is for calls that are nested less than `2 ^ 31` deep; the
call after that makes `depth` negative, and the assertion of the next `recursive_unlock` fails
(`recursive_lock_overflows`).
-/

namespace AimKernel.RecursiveLock

/-- Where a CPU is. -/
inductive Place
  /-- Between calls. -/
  | out
  /-- `recursive_lock`: before `lock->holder != cpuid()`. -/
  | test
  /-- Before `spin_lock`. -/
  | spin
  /-- Before `lock->holder = cpuid()`. -/
  | claim
  /-- Before the load of `++lock->depth`. -/
  | load
  /-- Before the store, with the depth that was loaded. -/
  | store (depth : Int)
  /-- `recursive_unlock`: before `assert(cpuid() == lock->holder)`. -/
  | assertHolder
  /-- Before `assert(lock->depth > 0)`. -/
  | assertDepth
  /-- Before the load of `--lock->depth`. -/
  | loadBack
  /-- Before the store, with the depth that was loaded. -/
  | storeBack (depth : Int)
  /-- Before `lock->depth == 0`. -/
  | check
  /-- Before `lock->holder = -1`. -/
  | clear
  /-- Before `spin_unlock`. -/
  | unlock
  /-- An assertion has failed. -/
  | failed
  deriving Repr, DecidableEq

/-- A CPU, with the number of `recursive_lock` calls that have returned and have not been undone
by a `recursive_unlock` that has returned. -/
structure Cpu where
  place : Place
  level : Nat
  deriving Repr, DecidableEq

/-- `rlock_t` without its spin lock. -/
structure Rlock where
  holder : Int
  depth : Int
  deriving Repr, DecidableEq

/-- `EMPTY_RLOCK`, with no CPU near the lock. -/
def init {ι : Type} : Shared ι Cpu Rlock := ⟨none, fun _ => ⟨.out, 0⟩, ⟨-1, 0⟩⟩

/-- An `int` after an addition or a subtraction. -/
def toInt (x : Int) : Int := x.bmod (2 ^ 32)

section Machine

variable {ι : Type} (cpuid : ι → Int) (allowed : Nat → Prop)

/-- The steps of a CPU whose calls are balanced. It calls `recursive_lock` at the levels that
are allowed, and `recursive_unlock` only inside of a pair. -/
inductive Routine (c : ι) : LockOp → Cpu × Rlock → Cpu × Rlock → Prop
  | lock (n : Nat) (m : Rlock) (hn : allowed n) : Routine c .keep (⟨.out, n⟩, m) (⟨.test, n⟩, m)
  | own (n : Nat) (m : Rlock) (h : m.holder = cpuid c) :
      Routine c .keep (⟨.test, n⟩, m) (⟨.load, n⟩, m)
  | other (n : Nat) (m : Rlock) (h : m.holder ≠ cpuid c) :
      Routine c .keep (⟨.test, n⟩, m) (⟨.spin, n⟩, m)
  | spin (n : Nat) (m : Rlock) : Routine c .acquire (⟨.spin, n⟩, m) (⟨.claim, n⟩, m)
  | claim (n : Nat) (m : Rlock) :
      Routine c .keep (⟨.claim, n⟩, m) (⟨.load, n⟩, { m with holder := cpuid c })
  | load (n : Nat) (m : Rlock) : Routine c .keep (⟨.load, n⟩, m) (⟨.store m.depth, n⟩, m)
  | store (n : Nat) (m : Rlock) (d : Int) :
      Routine c .keep (⟨.store d, n⟩, m) (⟨.out, n + 1⟩, { m with depth := toInt (d + 1) })
  | unlock (n : Nat) (m : Rlock) (hn : 0 < n) :
      Routine c .keep (⟨.out, n⟩, m) (⟨.assertHolder, n⟩, m)
  | holder (n : Nat) (m : Rlock) : Routine c .keep (⟨.assertHolder, n⟩, m)
      (⟨if cpuid c = m.holder then .assertDepth else .failed, n⟩, m)
  | depth (n : Nat) (m : Rlock) : Routine c .keep (⟨.assertDepth, n⟩, m)
      (⟨if 0 < m.depth then .loadBack else .failed, n⟩, m)
  | loadBack (n : Nat) (m : Rlock) :
      Routine c .keep (⟨.loadBack, n⟩, m) (⟨.storeBack m.depth, n⟩, m)
  | storeBack (n : Nat) (m : Rlock) (d : Int) :
      Routine c .keep (⟨.storeBack d, n⟩, m) (⟨.check, n⟩, { m with depth := toInt (d - 1) })
  | inner (n : Nat) (m : Rlock) (h : m.depth ≠ 0) :
      Routine c .keep (⟨.check, n⟩, m) (⟨.out, n - 1⟩, m)
  | outer (n : Nat) (m : Rlock) (h : m.depth = 0) :
      Routine c .keep (⟨.check, n⟩, m) (⟨.clear, n⟩, m)
  | clear (n : Nat) (m : Rlock) :
      Routine c .keep (⟨.clear, n⟩, m) (⟨.unlock, n⟩, { m with holder := -1 })
  | release (n : Nat) (m : Rlock) : Routine c .release (⟨.unlock, n⟩, m) (⟨.out, n - 1⟩, m)

end Machine

/-! ### The owner -/

/-- The lock while it is free. -/
def Vacant (m : Rlock) : Prop := m.holder = -1 ∧ m.depth = 0

/-- The lock belongs to the CPU with number `id`, nested `n` deep. -/
def Held (id : Int) (n : Nat) (m : Rlock) : Prop := m.holder = id ∧ m.depth = n ∧ n < 2 ^ 31

/-- The CPU that has the spin lock. -/
def Owner (id : Int) (x : Cpu) (m : Rlock) : Prop :=
  match x.place with
  | .out | .assertHolder | .assertDepth | .loadBack => 0 < x.level ∧ Held id x.level m
  | .test => x.level + 1 < 2 ^ 31 ∧ 0 < x.level ∧ Held id x.level m
  | .claim => x.level = 0 ∧ Vacant m
  | .load => x.level + 1 < 2 ^ 31 ∧ Held id x.level m
  | .store d => x.level + 1 < 2 ^ 31 ∧ Held id x.level m ∧ d = x.level
  | .storeBack d => 0 < x.level ∧ Held id x.level m ∧ d = x.level
  | .check => 0 < x.level ∧ Held id (x.level - 1) m
  | .clear => x.level = 1 ∧ Held id 0 m
  | .unlock => x.level = 1 ∧ Vacant m
  | .spin | .failed => False

/-- A CPU without the spin lock is outside of every pair. -/
def Without (x : Cpu) : Prop :=
  x.level = 0 ∧ (x.place = .out ∨ x.place = .test ∨ x.place = .spin)

theorem toInt_eq {x : Int} (hlo : 0 ≤ x) (hhi : x < 2 ^ 31) : toInt x = x := by
  apply Int.bmod_eq_of_le
  · omega
  · omega

/-- The owner's number is in `holder`, or none is. -/
theorem Owner.holder {id : Int} {x : Cpu} {m : Rlock} (h : Owner id x m) :
    m.holder = id ∨ m.holder = -1 := by
  obtain ⟨place, n⟩ := x
  cases place with
  | out => exact .inl h.2.1
  | test => exact .inl h.2.2.1
  | spin => exact h.elim
  | claim => exact .inr h.2.1
  | load => exact .inl h.2.1
  | store d => exact .inl h.2.1.1
  | assertHolder => exact .inl h.2.1
  | assertDepth => exact .inl h.2.1
  | loadBack => exact .inl h.2.1
  | storeBack d => exact .inl h.2.1.1
  | check => exact .inl h.2.1
  | clear => exact .inl h.2.1
  | unlock => exact .inr h.2.1
  | failed => exact h.elim

section Discipline

variable {ι : Type} {cpuid : ι → Int}

/-- A CPU without the lock does not find its own number in `holder`. -/
theorem foreign_holder (hinj : Function.Injective cpuid) (hnonneg : ∀ c, 0 ≤ cpuid c) {c : ι}
    {m : Rlock} (h : Shared.Foreign Vacant (fun c => Owner (cpuid c)) c m) :
    m.holder ≠ cpuid c := by
  have hc := hnonneg c
  intro hmine
  rcases h with hfree | ⟨d, hne, x, hown⟩
  · have hvacant := hfree.1
    omega
  · rcases hown.holder with hd | hnone
    · exact hne (hinj (hd.symm.trans hmine))
    · omega

theorem Owner.step {c : ι} {x y : Cpu × Rlock} (h : Owner (cpuid c) x.1 x.2)
    (hstep : Routine cpuid (· + 1 < 2 ^ 31) c .keep x y) : Owner (cpuid c) y.1 y.2 := by
  cases hstep with
  | lock n m hn => exact ⟨hn, h⟩
  | own n m hmine => exact ⟨h.1, h.2.2⟩
  | other n m hother => exact absurd h.2.2.1 hother
  | claim n m =>
    obtain ⟨hn, hvacant⟩ := h
    subst hn
    exact ⟨show 0 + 1 < 2 ^ 31 by decide, rfl, hvacant.2, show 0 < 2 ^ 31 by decide⟩
  | load n m => exact ⟨h.1, h.2, h.2.2.1⟩
  | store n m d =>
    obtain ⟨hn, hheld, hd⟩ := h
    change n + 1 < 2 ^ 31 at hn
    change d = n at hd
    refine ⟨Nat.succ_pos n, hheld.1, ?_, hn⟩
    change toInt (d + 1) = ((n + 1 : Nat) : Int)
    rw [toInt_eq (by omega) (by omega)]
    omega
  | unlock n m hn => exact h
  | holder n m =>
    obtain ⟨hn, hheld⟩ := h
    rw [if_pos hheld.1.symm]
    exact ⟨hn, hheld⟩
  | depth n m =>
    obtain ⟨hn, hheld⟩ := h
    have hdepth : m.depth = n := hheld.2.1
    have hpos : 0 < n := hn
    rw [if_pos (by omega)]
    exact ⟨hn, hheld⟩
  | loadBack n m => exact ⟨h.1, h.2, h.2.2.1⟩
  | storeBack n m d =>
    obtain ⟨hn, hheld, hd⟩ := h
    change 0 < n at hn
    change d = n at hd
    have hlt : n < 2 ^ 31 := hheld.2.2
    refine ⟨hn, hheld.1, ?_, ?_⟩
    · change toInt (d - 1) = ((n - 1 : Nat) : Int)
      rw [toInt_eq (by omega) (by omega)]
      omega
    · change n - 1 < 2 ^ 31
      omega
  | inner n m hdepth =>
    obtain ⟨hn, hheld⟩ := h
    have hd : m.depth = ((n - 1 : Nat) : Int) := hheld.2.1
    refine ⟨?_, hheld⟩
    change 0 < n - 1
    omega
  | outer n m hdepth =>
    obtain ⟨hn, hheld⟩ := h
    have hd : m.depth = ((n - 1 : Nat) : Int) := hheld.2.1
    have hpos : 0 < n := hn
    exact ⟨show n = 1 by omega, hheld.1, hdepth, by decide⟩
  | clear n m => exact ⟨h.1, rfl, h.2.2.1⟩

theorem discipline (hinj : Function.Injective cpuid) (hnonneg : ∀ c, 0 ≤ cpuid c) :
    Shared.Discipline (Routine cpuid (· + 1 < 2 ^ 31)) Vacant (fun c => Owner (cpuid c))
      fun _ => Without where
  outside := by
    intro c x y hout hforeign hstep
    obtain ⟨hlevel, hplace⟩ := hout
    cases hstep with
    | lock n m hn => exact ⟨⟨hlevel, .inr (.inl rfl)⟩, rfl⟩
    | own n m hmine => exact absurd hmine (foreign_holder hinj hnonneg hforeign)
    | other n m hother => exact ⟨⟨hlevel, .inr (.inr rfl)⟩, rfl⟩
    | unlock n m hn => exact absurd hlevel (Nat.ne_of_gt hn)
    | _ => simp at hplace
  acquire := by
    intro c x y hout hfree hstep
    cases hstep with
    | spin n m => exact ⟨hout.1, hfree⟩
  no_release := by
    intro c x y hout _ hstep
    obtain ⟨-, hplace⟩ := hout
    cases hstep with
    | release n m => simp at hplace
  inside := fun h hstep => h.step hstep
  release := by
    intro c x y hown hstep
    cases hstep with
    | release n m =>
      obtain ⟨hn, hvacant⟩ := hown
      change n = 1 at hn
      exact ⟨⟨show n - 1 = 0 by omega, .inl rfl⟩, hvacant⟩

end Discipline

/-- **Recursive locks are safe.** For any number of CPUs with distinct numbers, whose calls are
balanced and nested less than `2 ^ 31` deep: at most one CPU is inside of an outermost pair;
whenever a CPU has the inner lock and is between calls, `holder` is its number and `depth` its
nesting level; and no assertion fails. -/
theorem recursive_lock_safe {ι : Type} [DecidableEq ι] {cpuid : ι → Int}
    (hinj : Function.Injective cpuid) (hnonneg : ∀ c, 0 ≤ cpuid c) {s : Shared ι Cpu Rlock}
    (hrun : Relation.ReflTransGen (Shared.Step (Routine cpuid (· + 1 < 2 ^ 31))) init s) :
    (∀ c d, 0 < (s.pc c).level → 0 < (s.pc d).level → c = d) ∧
      (∀ c, s.lock = some c → (s.pc c).place = .out →
        s.mem.holder = cpuid c ∧ s.mem.depth = (s.pc c).level) ∧
      ∀ c, (s.pc c).place ≠ .failed := by
  have hinit : Shared.Inv Vacant (fun c => Owner (cpuid c)) (fun _ => Without)
      (init : Shared ι Cpu Rlock) :=
    ⟨fun _ => ⟨rfl, rfl⟩, fun c hc => absurd hc.symm (Option.some_ne_none c),
      fun _ _ => ⟨rfl, .inl rfl⟩⟩
  have hinv := hinit.run (discipline hinj hnonneg) hrun
  have hlock : ∀ c, 0 < (s.pc c).level → s.lock = some c := by
    intro c hc
    by_contra hne
    exact absurd (hinv.others c hne).1 (Nat.ne_of_gt hc)
  refine ⟨?_, ?_, ?_⟩
  · intro c d hc hd
    exact Option.some.inj ((hlock c hc).symm.trans (hlock d hd))
  · intro c hc hplace
    have hown := hinv.owner c hc
    unfold Owner at hown
    rw [hplace] at hown
    exact ⟨hown.2.1, hown.2.2.1⟩
  · intro c hfailed
    by_cases hc : s.lock = some c
    · have hown := hinv.owner c hc
      unfold Owner at hown
      rw [hfailed] at hown
      exact hown
    · have hplace := (hinv.others c hc).2
      rw [hfailed] at hplace
      simp at hplace

/-! ### One CPU, nested deeply -/

/-- The state with a single CPU, whose number is zero. -/
def alone (lock : Option Unit) (place : Place) (level : Nat) (holder depth : Int) :
    Shared Unit Cpu Rlock :=
  ⟨lock, fun _ => ⟨place, level⟩, ⟨holder, depth⟩⟩

section Alone

variable {allowed : Nat → Prop} {lock : Option Unit} {place : Place} {n : Nat}
  {holder depth : Int}

theorem keep_alone {place' : Place} {n' : Nat} {holder' depth' : Int}
    (h : Routine (fun _ => 0) allowed () .keep (⟨place, n⟩, ⟨holder, depth⟩)
      (⟨place', n'⟩, ⟨holder', depth'⟩)) :
    Shared.Step (Routine (fun _ => 0) allowed) (alone lock place n holder depth)
      (alone lock place' n' holder' depth') := by
  have hstep := Shared.Step.step (s := alone lock place n holder depth) () .keep _ nofun h
  unfold Shared.after alone at hstep
  exact hstep

theorem spin_alone : Shared.Step (Routine (fun _ => 0) allowed) (alone none .spin n holder depth)
    (alone (some ()) .claim n holder depth) := by
  have hstep := Shared.Step.step (P := Routine (fun _ => 0) allowed)
    (s := alone none .spin n holder depth) () .acquire _ (fun _ => rfl) (.spin n _)
  unfold Shared.after alone at hstep
  exact hstep

theorem count_up : Relation.ReflTransGen (Shared.Step (Routine (fun _ => 0) allowed))
    (alone lock .load n holder depth)
    (alone lock .out (n + 1) holder (toInt (depth + 1))) :=
  (Relation.ReflTransGen.single (keep_alone (.load n ⟨holder, depth⟩))).tail
    (keep_alone (.store n ⟨holder, depth⟩ depth))

theorem lock_first (h0 : allowed 0) :
    Relation.ReflTransGen (Shared.Step (Routine (fun _ => 0) allowed)) init
      (alone (some ()) .out 1 0 (toInt 1)) := by
  have hlock : Shared.Step (Routine (fun _ => 0) allowed) (alone none .out 0 (-1) 0)
      (alone none .test 0 (-1) 0) := keep_alone (.lock 0 _ h0)
  have htest : Shared.Step (Routine (fun _ => 0) allowed) (alone none .test 0 (-1) 0)
      (alone none .spin 0 (-1) 0) := keep_alone (.other 0 _ (by decide))
  have hspin : Shared.Step (Routine (fun _ => 0) allowed) (alone none .spin 0 (-1) 0)
      (alone (some ()) .claim 0 (-1) 0) := spin_alone
  have hclaim : Shared.Step (Routine (fun _ => 0) allowed) (alone (some ()) .claim 0 (-1) 0)
      (alone (some ()) .load 0 0 0) := keep_alone (.claim 0 ⟨-1, 0⟩)
  exact ((((Relation.ReflTransGen.single hlock).tail htest).tail hspin).tail hclaim).trans count_up

theorem lock_again (hn : allowed n) :
    Relation.ReflTransGen (Shared.Step (Routine (fun _ => 0) allowed))
      (alone (some ()) .out n 0 depth) (alone (some ()) .out (n + 1) 0 (toInt (depth + 1))) := by
  have hlock : Shared.Step (Routine (fun _ => 0) allowed) (alone (some ()) .out n 0 depth)
      (alone (some ()) .test n 0 depth) := keep_alone (.lock n _ hn)
  have htest : Shared.Step (Routine (fun _ => 0) allowed) (alone (some ()) .test n 0 depth)
      (alone (some ()) .load n 0 depth) := keep_alone (.own n _ rfl)
  exact ((Relation.ReflTransGen.single hlock).tail htest).trans count_up

/-- `n + 1` nested calls of `recursive_lock`. -/
theorem lock_nested (allowed : Nat → Prop) (n : Nat) (hn : ∀ k ≤ n, allowed k) :
    Relation.ReflTransGen (Shared.Step (Routine (fun _ => 0) allowed)) init
      (alone (some ()) .out (n + 1) 0 (toInt (n + 1))) := by
  induction n with
  | zero => exact lock_first (hn 0 (Nat.le_refl 0))
  | succ n ih =>
    have hrest := ih fun k hk => hn k (Nat.le_succ_of_le hk)
    have hnext : toInt (toInt (n + 1) + 1) = toInt ((n + 1 : Nat) + 1) := by
      unfold toInt
      rw [Int.bmod_add_bmod]
      rfl
    rw [← hnext]
    exact hrest.trans (lock_again (hn (n + 1) (Nat.le_refl _)))

end Alone

/-- CPU `0` is two calls deep, and CPU `1`, which has not found its number in `holder`, waits for
the spin lock. -/
theorem recursive_lock_safe_contended : ∃ s : Shared (Fin 2) Cpu Rlock,
    Relation.ReflTransGen (Shared.Step (Routine (fun c => (c.val : Int)) (· + 1 < 2 ^ 31))) init s ∧
      (s.pc 0).level = 2 ∧ (s.pc 1).place = .spin ∧ s.mem.holder = 0 ∧ s.mem.depth = 2 ∧
      ∀ c, (s.pc c).place ≠ .failed := by
  have h₁ : Relation.ReflTransGen
      (Shared.Step (Routine (fun c : Fin 2 => (c.val : Int)) (· + 1 < 2 ^ 31))) init _ :=
    Shared.run_go .refl 0 (by decide) (.lock _ _ (by decide))
  have h₂ := Shared.run_go h₁ 0 (by decide) (.other _ _ (by decide))
  have h₃ := Shared.run_take h₂ 0 rfl (.spin _ _)
  have h₄ := Shared.run_go h₃ 0 (by decide) (.claim _ _)
  have h₅ := Shared.run_go h₄ 1 (by decide) (.lock _ _ (by decide))
  have h₆ := Shared.run_go h₅ 1 (by decide) (.other _ _ (by decide))
  have h₇ := Shared.run_go h₆ 0 (by decide) (.load _ _)
  have h₈ := Shared.run_go h₇ 0 (by decide) (.store _ _ _)
  have h₉ := Shared.run_go h₈ 0 (by decide) (.lock _ _ (by decide))
  have h₁₀ := Shared.run_go h₉ 0 (by decide) (.own _ _ rfl)
  have h₁₁ := Shared.run_go h₁₀ 0 (by decide) (.load _ _)
  have h₁₂ := Shared.run_go h₁₁ 0 (by decide) (.store _ _ _)
  obtain ⟨-, hown, hsafe⟩ := recursive_lock_safe
    (fun a b hab => Fin.ext (Int.ofNat.inj hab)) (fun _ => Int.natCast_nonneg _) h₁₂
  exact ⟨_, h₁₂, rfl, rfl, (hown 0 rfl rfl).1, (hown 0 rfl rfl).2, hsafe⟩

/-- After `2 ^ 31` nested calls `depth` is negative, and the first `recursive_unlock` fails its
second assertion. -/
theorem recursive_lock_overflows : ∃ s : Shared Unit Cpu Rlock,
    Relation.ReflTransGen (Shared.Step (Routine (fun _ => 0) fun _ => True)) init s ∧
      s.mem.depth = -2 ^ 31 ∧ (s.pc ()).place = .failed := by
  have hnested := lock_nested (fun _ => True) (2 ^ 31 - 1) fun _ _ => trivial
  have hdepth : toInt ((2 ^ 31 - 1 : Nat) + 1) = -2 ^ 31 := by decide
  obtain ⟨n, hpos, hn⟩ : ∃ n, 0 < n ∧ 2 ^ 31 - 1 + 1 = n := ⟨_, by decide, rfl⟩
  rw [hn] at hnested
  have hcall : Shared.Step (Routine (fun _ => 0) fun _ => True)
      (alone (some ()) .out n 0 (-2 ^ 31)) (alone (some ()) .assertHolder n 0 (-2 ^ 31)) :=
    keep_alone (.unlock n _ hpos)
  have hholder : Shared.Step (Routine (fun _ => 0) fun _ => True)
      (alone (some ()) .assertHolder n 0 (-2 ^ 31)) (alone (some ()) .assertDepth n 0 (-2 ^ 31)) :=
    keep_alone (.holder n ⟨0, -2 ^ 31⟩)
  have hfail : Shared.Step (Routine (fun _ => 0) fun _ => True)
      (alone (some ()) .assertDepth n 0 (-2 ^ 31)) (alone (some ()) .failed n 0 (-2 ^ 31)) :=
    keep_alone (.depth n ⟨0, -2 ^ 31⟩)
  exact ⟨_, ((hnested.tail hcall).tail hholder).tail hfail, rfl, rfl⟩

end AimKernel.RecursiveLock
