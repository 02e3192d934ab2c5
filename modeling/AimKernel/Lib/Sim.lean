import AimKernel.Lib.Wp

/-!
# AimKernel.Lib.Sim

Simulation of one stateful computation by another.

`Sim R m n` compares a computation `m` on states `σ` with a more abstract one `n` on
states `τ`: from related states, whenever `n` returns, `m` returns the same result,
and the new states are related again. Where `n` faults nothing is said, so the
abstract side states its preconditions by faulting. The rules follow the structure
of a `do` block that both sides share; `Sim.wp` carries a specification of `n` over
to `m`.
-/

namespace AimKernel

variable {σ τ ε ε' α β : Type} {R : σ → τ → Prop}

/-- Whenever `n` returns, `m` does the same from every related state. -/
def Sim (R : σ → τ → Prop) (m : StateT σ (Except ε) α) (n : StateT τ (Except ε') α) : Prop :=
  ∀ s t a t', R s t → n t = .ok (a, t') → ∃ s', m s = .ok (a, s') ∧ R s' t'

namespace Sim

/-- A specification of the abstract side holds of the concrete side. -/
theorem wp {m : StateT σ (Except ε) α} {n : StateT τ (Except ε') α} (h : Sim R m n) {s : σ}
    {t : τ} (hr : R s t) {Q : α → τ → Prop} (hn : AimKernel.wp n Q t) :
    AimKernel.wp m (fun a s' => ∃ t', R s' t' ∧ Q a t') s := by
  obtain ⟨a, t', hok, hq⟩ := wp_iff.mp hn
  obtain ⟨s', hs, hr'⟩ := h s t a t' hr hok
  exact wp_iff.mpr ⟨a, s', hs, t', hr', hq⟩

/-- A simulation from what the concrete side does whenever the abstract one returns. -/
theorem of_wp {m : StateT σ (Except ε) α} {n : StateT τ (Except ε') α}
    (h : ∀ s t a t', R s t → n t = .ok (a, t') →
      AimKernel.wp m (fun a' s' => a' = a ∧ R s' t') s) : Sim R m n := by
  intro s t a t' hr hn
  obtain ⟨a', s', hs, rfl, hr'⟩ := wp_iff.mp (h s t a t' hr hn)
  exact ⟨s', hs, hr'⟩

theorem refl (m : StateT σ (Except ε) α) : Sim Eq m m := by
  rintro s t a t' rfl hn
  exact ⟨t', hn, rfl⟩

theorem pure (a : α) : Sim R (pure a : StateT σ (Except ε) α) (pure a : StateT τ (Except ε') α) := by
  intro s t b t' hr hn
  cases hn
  exact ⟨s, rfl, hr⟩

/-- Nothing has to be shown where the abstract side faults. -/
theorem throw {m : StateT σ (Except ε) α} (e : ε') :
    Sim R m (throw e : StateT τ (Except ε') α) := by
  intro s t a t' _ hn
  cases hn

theorem bind {m : StateT σ (Except ε) α} {n : StateT τ (Except ε') α}
    {f : α → StateT σ (Except ε) β} {g : α → StateT τ (Except ε') β} (h : Sim R m n)
    (hf : ∀ a, Sim R (f a) (g a)) : Sim R (m >>= f) (n >>= g) := by
  intro s t b t'' hr hn
  have hrun : (n >>= g) t = (n t).bind fun r => g r.1 r.2 := rfl
  rw [hrun] at hn
  cases hnt : n t with
  | error e => rw [hnt] at hn; cases hn
  | ok r =>
    obtain ⟨a, t'⟩ := r
    rw [hnt] at hn
    obtain ⟨s', hs, hr'⟩ := h s t a t' hr hnt
    obtain ⟨s'', hs', hr''⟩ := hf a s' t' b t'' hr' hn
    refine ⟨s'', ?_, hr''⟩
    have hrun' : (m >>= f) s = (m s).bind fun r => f r.1 r.2 := rfl
    rw [hrun', hs]
    exact hs'

theorem ite {c : Prop} [Decidable c] {m m' : StateT σ (Except ε) α}
    {n n' : StateT τ (Except ε') α} (ht : c → Sim R m n) (he : ¬ c → Sim R m' n') :
    Sim R (if c then m else m') (if c then n else n') := by
  by_cases hc : c
  · rw [if_pos hc, if_pos hc]
    exact ht hc
  · rw [if_neg hc, if_neg hc]
    exact he hc

theorem forM {f : α → StateT σ (Except ε) PUnit} {g : α → StateT τ (Except ε') PUnit}
    (xs : List α) (h : ∀ x, Sim R (f x) (g x)) : Sim R (xs.forM f) (xs.forM g) := by
  induction xs with
  | nil => exact Sim.pure _
  | cons x rest ih => exact Sim.bind (h x) fun _ => ih

/-- Simulations on the same component of two larger states. -/
theorem zoom {σ' τ' : Type} {R' : σ' → τ' → Prop} {view : σ' → σ} {update : σ → σ' → σ'}
    {view' : τ' → τ} {update' : τ → τ' → τ'} {m : StateT σ (Except ε) α}
    {n : StateT τ (Except ε') α} (h : Sim R m n) (hview : ∀ s t, R' s t → R (view s) (view' t))
    (hupdate : ∀ s t x y, R' s t → R x y → R' (update x s) (update' y t)) :
    Sim R' (AimKernel.zoom view update m) (AimKernel.zoom view' update' n) := by
  intro s t a t' hr hn
  unfold AimKernel.zoom at hn ⊢
  cases hnt : n (view' t) with
  | error e => rw [hnt] at hn; cases hn
  | ok r =>
    obtain ⟨b, y⟩ := r
    rw [hnt] at hn
    cases hn
    obtain ⟨x, hx, hxy⟩ := h _ _ _ _ (hview s t hr) hnt
    rw [hx]
    exact ⟨_, rfl, hupdate s t x y hr hxy⟩

end Sim

end AimKernel
