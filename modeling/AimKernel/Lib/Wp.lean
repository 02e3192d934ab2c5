import Mathlib.Logic.Basic
import Mathlib.Order.Defs.Unbundled

/-!
# AimKernel.Lib.Wp

Pre- and postconditions for stateful computations that may fault.

A computation of type `StateT σ (Except ε) α` either stops with a fault or returns
a result and a new state. `wp m Q s` is its weakest precondition for *total*
correctness: started in `s`, `m` does not fault, and result and final state satisfy
`Q`. The rules below run a `do` block symbolically; specifications of the pieces are
used through `wp_mono`.

`zoom` runs a computation on one component of a larger state.

Behind them stand the other views of a computation that the development uses: `Along R m`, that
every run of `m` that returns leads along `R`; `Early`, pieces of C functions that return from the
middle of loops; and `Returns f a`, that a computation with fuel gives `a` with every sufficient
amount of it.
-/

namespace AimKernel

variable {σ τ ε α β : Type} {s : σ}

/-- From `s`, the computation `m` ends without a fault in a result and a state that
satisfy `Q`. -/
def wp (m : StateT σ (Except ε) α) (Q : α → σ → Prop) (s : σ) : Prop :=
  match m s with
  | .ok (a, s') => Q a s'
  | .error _ => False

theorem wp_iff {m : StateT σ (Except ε) α} {Q : α → σ → Prop} :
    wp m Q s ↔ ∃ a s', m s = .ok (a, s') ∧ Q a s' := by
  unfold wp
  cases m s with
  | error e => simp
  | ok r =>
    constructor
    · intro h
      exact ⟨r.1, r.2, rfl, h⟩
    · rintro ⟨a, s', hr, h⟩
      cases hr
      exact h

theorem wp_of_run {m : StateT σ (Except ε) α} {Q : α → σ → Prop} {a : α} {s' : σ}
    (h : m s = .ok (a, s')) (hQ : Q a s') : wp m Q s :=
  wp_iff.mpr ⟨a, s', h, hQ⟩

theorem wp_run {m : StateT σ (Except ε) α} {Q : α → σ → Prop} {a : α} {s' : σ}
    (h : wp m Q s) (hrun : m s = .ok (a, s')) : Q a s' := by
  obtain ⟨a', s'', hrun', hQ⟩ := wp_iff.mp h
  obtain ⟨rfl, rfl⟩ := Prod.mk.inj (Except.ok.inj (hrun.symm.trans hrun'))
  exact hQ

theorem run_of_wp {m : StateT σ (Except ε) α} {a : α} {s' : σ}
    (h : wp m (fun b t => b = a ∧ t = s') s) : m s = .ok (a, s') := by
  obtain ⟨_, _, hrun, rfl, rfl⟩ := wp_iff.mp h
  exact hrun

/-- The state in which a computation ends; the one it starts in if it faults. -/
def after (m : StateT σ (Except ε) α) (s : σ) : σ :=
  match m s with
  | .ok (_, s') => s'
  | .error _ => s

theorem run_after {m : StateT σ (Except ε) α} (h : (m s).isOk = true) :
    ∃ a, m s = .ok (a, after m s) := by
  unfold after
  cases hm : m s with
  | error e => rw [hm] at h; cases h
  | ok r => exact ⟨r.1, rfl⟩

theorem run_after_eq {m : StateT σ (Except ε) α} {a : α}
    (h : (m s).toOption.map Prod.fst = some a) : m s = .ok (a, after m s) := by
  unfold after
  cases hm : m s with
  | error e => rw [hm] at h; cases h
  | ok r => rw [hm] at h; cases h; rfl

@[simp] theorem wp_pure {a : α} {Q : α → σ → Prop} :
    wp (pure a : StateT σ (Except ε) α) Q s ↔ Q a s := Iff.rfl

@[simp] theorem wp_throw {e : ε} {Q : α → σ → Prop} :
    wp (throw e : StateT σ (Except ε) α) Q s ↔ False := Iff.rfl

@[simp] theorem wp_get {Q : σ → σ → Prop} :
    wp (get : StateT σ (Except ε) σ) Q s ↔ Q s s := Iff.rfl

@[simp] theorem wp_set {s' : σ} {Q : PUnit → σ → Prop} :
    wp (set s' : StateT σ (Except ε) PUnit) Q s ↔ Q ⟨⟩ s' := Iff.rfl

@[simp] theorem wp_modify {f : σ → σ} {Q : PUnit → σ → Prop} :
    wp (modify f : StateT σ (Except ε) PUnit) Q s ↔ Q ⟨⟩ (f s) := Iff.rfl

@[simp] theorem wp_bind {m : StateT σ (Except ε) α} {f : α → StateT σ (Except ε) β}
    {Q : β → σ → Prop} : wp (m >>= f) Q s ↔ wp m (fun a => wp (f a) Q) s := by
  have hrun : (m >>= f) s = (m s).bind fun r => f r.1 r.2 := rfl
  unfold wp
  rw [hrun]
  cases m s with
  | error e => exact Iff.rfl
  | ok r => exact Iff.rfl

@[simp] theorem wp_map {m : StateT σ (Except ε) α} {f : α → β} {Q : β → σ → Prop} :
    wp (f <$> m) Q s ↔ wp m (fun a => Q (f a)) s := by
  have hrun : (f <$> m) s = (m s).bind fun r => .ok (f r.1, r.2) := rfl
  unfold wp
  rw [hrun]
  cases m s with
  | error e => exact Iff.rfl
  | ok r => exact Iff.rfl

/-- A specification is used at a weaker postcondition. -/
theorem wp_mono {m : StateT σ (Except ε) α} {P Q : α → σ → Prop} (h : wp m P s)
    (hpq : ∀ a s', P a s' → Q a s') : wp m Q s := by
  unfold wp at *
  cases hm : m s with
  | error e => rw [hm] at h; exact h
  | ok r => rw [hm] at h; exact hpq _ _ h

theorem wp_congr {m : StateT σ (Except ε) α} {P Q : α → σ → Prop}
    (h : ∀ a s', P a s' ↔ Q a s') : wp m P s ↔ wp m Q s :=
  ⟨fun hp => wp_mono hp fun a s' => (h a s').mp, fun hq => wp_mono hq fun a s' => (h a s').mpr⟩

/-- A deterministic computation that ends can be given both postconditions. -/
theorem wp_and {m : StateT σ (Except ε) α} {P Q : α → σ → Prop} (hp : wp m P s)
    (hq : wp m Q s) : wp m (fun a s' => P a s' ∧ Q a s') s := by
  unfold wp at *
  cases hm : m s with
  | error e => rw [hm] at hp; exact hp
  | ok r => rw [hm] at hp hq; exact ⟨hp, hq⟩

/-- The invariant rule for a loop over a list: `I` relates what is left of the list
to the state. -/
theorem wp_forM {f : α → StateT σ (Except ε) PUnit} {Q : PUnit → σ → Prop}
    (I : List α → σ → Prop) {xs : List α} (hinit : I xs s)
    (hstep : ∀ x rest s, I (x :: rest) s → wp (f x) (fun _ => I rest) s)
    (hdone : ∀ s, I [] s → Q ⟨⟩ s) : wp (xs.forM f) Q s := by
  induction xs generalizing s with
  | nil => exact hdone s hinit
  | cons x rest ih =>
    show wp (f x >>= fun _ => rest.forM f) Q s
    rw [wp_bind]
    exact wp_mono (hstep x rest s hinit) fun _ _ h => ih h

/-- Run a computation on a component of the state. -/
def zoom (view : σ → τ) (update : τ → σ → σ) (m : StateT τ (Except ε) α) :
    StateT σ (Except ε) α := fun s =>
  match m (view s) with
  | .ok (a, t) => .ok (a, update t s)
  | .error e => .error e

@[simp] theorem wp_zoom {view : σ → τ} {update : τ → σ → σ} {m : StateT τ (Except ε) α}
    {Q : α → σ → Prop} :
    wp (zoom view update m) Q s ↔ wp m (fun a t => Q a (update t s)) (view s) := by
  unfold wp zoom
  cases m (view s) with
  | error e => exact Iff.rfl
  | ok r => exact Iff.rfl

/-! ### Taking a run apart -/

/-- A `do` block returns exactly if its parts do, one after the other. -/
theorem run_bind {m : StateT σ (Except ε) α} {f : α → StateT σ (Except ε) β} {b : β} {s'' : σ} :
    (m >>= f) s = .ok (b, s'') ↔ ∃ a s', m s = .ok (a, s') ∧ f a s' = .ok (b, s'') := by
  have hrun : (m >>= f) s = (m s).bind fun r => f r.1 r.2 := rfl
  rw [hrun]
  cases m s with
  | error e => simp [Except.bind]
  | ok r =>
    constructor
    · intro h
      exact ⟨r.1, r.2, rfl, h⟩
    · rintro ⟨a, s', hr, h⟩
      cases hr
      exact h

theorem run_pure {a b : α} {s' : σ} :
    (pure a : StateT σ (Except ε) α) s = .ok (b, s') ↔ a = b ∧ s = s' := by
  constructor
  · intro h
    exact Prod.mk.inj (Except.ok.inj h)
  · rintro ⟨rfl, rfl⟩
    rfl

theorem run_zoom {view : σ → τ} {update : τ → σ → σ} {m : StateT τ (Except ε) α} {a : α} {s' : σ} :
    zoom view update m s = .ok (a, s') ↔ ∃ t, m (view s) = .ok (a, t) ∧ update t s = s' := by
  unfold zoom
  cases m (view s) with
  | error e => simp
  | ok r =>
    constructor
    · intro h
      obtain ⟨rfl, rfl⟩ := Prod.mk.inj (Except.ok.inj h)
      exact ⟨r.2, rfl, rfl⟩
    · rintro ⟨t, hr, rfl⟩
      cases hr
      rfl

/-- What every run does can be added to a specification. -/
theorem wp_with_run {m : StateT σ (Except ε) α} {P Q : α → σ → Prop} (h : wp m P s)
    (hrun : ∀ a s', m s = .ok (a, s') → P a s' → Q a s') : wp m Q s := by
  obtain ⟨a, s', hok, hp⟩ := wp_iff.mp h
  exact wp_of_run hok (hrun a s' hok hp)

/-! From here on specifications are reached through the rules only. -/

attribute [irreducible] wp

/-! ### Runs along a relation

The weakest kind of specification and the cheapest to lift: for a preorder `R` the rules follow the
structure of a `do` block and nothing has to be said about its conditions. -/

/-- Every run of `m` that returns leads from a state to one that `R` relates to it. -/
def Along (R : σ → σ → Prop) (m : StateT σ (Except ε) α) : Prop :=
  ∀ s a s', m s = .ok (a, s') → R s s'

namespace Along

variable {R : σ → σ → Prop}

theorem throw (e : ε) : Along R (throw e : StateT σ (Except ε) α) := fun _ _ _ h => nomatch h

theorem pure [IsPreorder σ R] (a : α) : Along R (pure a : StateT σ (Except ε) α) := by
  intro s b s' h
  obtain ⟨-, rfl⟩ := run_pure.mp h
  exact refl_of R s

theorem bind [IsPreorder σ R] {m : StateT σ (Except ε) α} {f : α → StateT σ (Except ε) β}
    (h : Along R m) (hf : ∀ a, Along R (f a)) : Along R (m >>= f) := by
  intro s b s'' hrun
  obtain ⟨a, s', hm, hrest⟩ := run_bind.mp hrun
  exact trans_of R (h s a s' hm) (hf a s' b s'' hrest)

theorem ite {c : Prop} [Decidable c] {m n : StateT σ (Except ε) α} (ht : Along R m)
    (he : Along R n) : Along R (if c then m else n) := by
  split
  · exact ht
  · exact he

theorem forM [IsPreorder σ R] {f : α → StateT σ (Except ε) PUnit} (xs : List α)
    (h : ∀ x, Along R (f x)) : Along R (xs.forM f) := by
  induction xs with
  | nil => exact Along.pure _
  | cons x rest ih => exact Along.bind (h x) fun _ => ih

/-- A run on a component of the state, where `R` can be told from what the component does. -/
theorem zoom {S : τ → τ → Prop} {view : σ → τ} {update : τ → σ → σ} {m : StateT τ (Except ε) α}
    (h : Along S m) (hR : ∀ s t, S (view s) t → R s (update t s)) :
    Along R (AimKernel.zoom view update m) := by
  intro s a s' hrun
  obtain ⟨t, hm, rfl⟩ := run_zoom.mp hrun
  exact hR s t (h _ a t hm)

end Along

/-! ### Early return -/

/-- Part of a function with return type `ρ`: it goes on with a value, leaves the function with a return
value, or faults. -/
abbrev Early (σ ε ρ α : Type) : Type := ExceptT ρ (StateT σ (Except ε)) α

namespace Early

variable {σ ε ρ α β : Type}

/-- `return v;` -/
def leave (v : ρ) : Early σ ε ρ α := ExceptT.mk (pure (.error v))

/-- A fault. -/
def fault (e : ε) : Early σ ε ρ α := ExceptT.mk (throw e)

/-- A computation without state. -/
def ofExcept : Except ε α → Early σ ε ρ α
  | .ok a => pure a
  | .error e => fault e

theorem run_bind_of_ok {m : Early σ ε ρ α} {f : α → Early σ ε ρ β} {s t : σ} {a : α}
    (h : m.run s = .ok (.ok a, t)) : (m >>= f).run s = (f a).run t := by
  have hbind : (m >>= f).run s = (m.run >>= ExceptT.bindCont f) s := rfl
  show (m.run s >>= fun r => ExceptT.bindCont f r.1 r.2) = _
  rw [h]
  rfl

theorem run_bind_of_error {m : Early σ ε ρ α} {f : α → Early σ ε ρ β} {s t : σ} {v : ρ}
    (h : m.run s = .ok (.error v, t)) : (m >>= f).run s = .ok (.error v, t) := by
  have hbind : (m >>= f).run s = (m.run >>= ExceptT.bindCont f) s := rfl
  show (m.run s >>= fun r => ExceptT.bindCont f r.1 r.2) = _
  rw [h]
  rfl

end Early

/-! ### Computations with fuel -/

/-- With enough fuel the computation returns `a`. -/
def Returns {α : Type} (f : Nat → Option α) (a : α) : Prop := ∃ n, ∀ fuel, n ≤ fuel → f fuel = some a

namespace Returns

variable {α β : Type} {f : Nat → Option α} {a b : α}

theorem unique (ha : Returns f a) (hb : Returns f b) : a = b := by
  obtain ⟨n, hn⟩ := ha
  obtain ⟨m, hm⟩ := hb
  exact Option.some.inj ((hn (max n m) (Nat.le_max_left _ _)).symm.trans (hm _ (Nat.le_max_right _ _)))

theorem pure (a : α) : Returns (fun _ => some a) a := ⟨0, fun _ _ => rfl⟩

theorem bind {g : α → Nat → Option β} {b : β} (hf : Returns f a) (hg : Returns (g a) b) :
    Returns (fun fuel => (f fuel).bind fun a => g a fuel) b := by
  obtain ⟨n, hn⟩ := hf
  obtain ⟨m, hm⟩ := hg
  refine ⟨max n m, fun fuel hle => ?_⟩
  dsimp only
  rw [hn fuel (Nat.le_trans (Nat.le_max_left _ _) hle)]
  exact hm fuel (Nat.le_trans (Nat.le_max_right _ _) hle)

end Returns

end AimKernel
