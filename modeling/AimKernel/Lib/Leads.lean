import Mathlib.Logic.Relation

/-!
# AimKernel.Lib.Leads

Total correctness of programs given as a step relation.

`Leads step G Q P s` says: running from `s`, as long as every step is taken from a
state that satisfies the guard `G`, passes only through states of `Q` and arrives
at `P` after finitely many steps. A run that leaves the guard is not followed any
further. Specifications of calls are statements of this form about the state in
which the call starts; they are strung together with `Leads.bind`.

If the step relation is deterministic, what holds of *some* run holds of *the* run:
`Leads.advance` follows a given run.
-/

namespace AimKernel

variable {σ : Type} {step : σ → σ → Prop} {G Q P R : σ → Prop} {s s' : σ}

/-- Under the guard `G`, the run from `s` stays in `Q` until it arrives at `P`. -/
inductive Leads (step : σ → σ → Prop) (G Q P : σ → Prop) : σ → Prop
  /-- Arrived. -/
  | done {s : σ} : P s → Leads step G Q P s
  /-- The run leaves the guard here. -/
  | leave {s : σ} : Q s → ¬ G s → Leads step G Q P s
  /-- There is a next step. -/
  | next {s s' : σ} : Q s → step s s' → Leads step G Q P s' → Leads step G Q P s

namespace Leads

/-- A step that is only known to exist under the guard. -/
theorem guarded (hq : Q s) (h : G s → ∃ s', step s s' ∧ Leads step G Q P s') :
    Leads step G Q P s := by
  by_cases hg : G s
  · obtain ⟨s', hstep, hlead⟩ := h hg
    exact .next hq hstep hlead
  · exact .leave hq hg

theorem bind (h : Leads step G Q R s) (hk : ∀ t, R t → Leads step G Q P t) :
    Leads step G Q P s := by
  induction h with
  | done hr => exact hk _ hr
  | leave hq hg => exact .leave hq hg
  | next hq hstep _ ih => exact .next hq hstep ih

/-- Weakening what is arrived at and what holds on the way. -/
theorem mono {Q' : σ → Prop} (h : Leads step G Q R s) (hp : ∀ t, R t → P t)
    (hq : ∀ t, Q t → Q' t) : Leads step G Q' P s := by
  induction h with
  | done hr => exact .done (hp _ hr)
  | leave hqs hg => exact .leave (hq _ hqs) hg
  | next hqs hstep _ ih => exact .next (hq _ hqs) hstep ih

theorem safe (h : Leads step G Q P s) (hp : ∀ t, P t → Q t) : Q s := by
  cases h with
  | done hps => exact hp _ hps
  | leave hqs _ => exact hqs
  | next hqs _ _ => exact hqs

/-- Following a run of a deterministic step relation. -/
theorem advance (hdet : ∀ {a b c}, step a b → step a c → b = c) (h : Leads step G Q P s)
    (hp : ¬ P s) (hg : G s) (hs : step s s') : Leads step G Q P s' := by
  cases h with
  | done hps => exact absurd hps hp
  | leave _ hng => exact absurd hg hng
  | next _ ht hlead =>
    rw [hdet hs ht]
    exact hlead

end Leads

end AimKernel
