import AimKernel.Proc.PlainScheduler

/-!
# AimKernel.Proc.ProcWalk

Iteration over the listed processes with `__next`, `__find`, and `wakeup`.

`__next` steps from a listed process to the one behind it. Behind the last one it returns the
process around the sentinel, whose node is the sentinel, so that the next step leads to the first
process again: whoever has met the list goes round it forever (`InRing`). It has no case for
`NULL` either, where an iteration is to start; it follows what happens to be there instead.
`wakeup` does not even get that far, since it waits for a lock that it holds (`wakeup_waits`).
-/

namespace AimKernel.PlainScheduler

open Sched (ProcState)

section Walk

variable {L : Layout} {s : SchedList} {ps : List Nat} {fuel bed : Nat}

/-! ### Steps -/

/-- A listed process, or the one around the sentinel. -/
def InRing (L : Layout) (ps : List Nat) (p : Nat) : Prop := p ∈ ps ∨ p = L.sentry

variable {q : List Nat} {p x : Nat} {s' : SchedList}

theorem listEntry_firstHook (q : List Nat) : listEntry L (Ring.firstHook q) = q.headD L.sentry := by
  cases q <;> rfl

theorem headD_inRing (hq : ∀ x ∈ q, x ∈ ps) : InRing L ps (q.headD L.sentry) := by
  cases q with
  | nil => exact .inr rfl
  | cons x q => exact .inl (hq x List.mem_cons_self)

theorem Built.ring_ne (h : Built L s ps) (hp : InRing L ps p) : p ≠ 0 ∧ p ≠ L.head := by
  cases hp with
  | inl hmem => exact ⟨(h.proper p hmem).ne_null, (h.proper p hmem).ne_head⟩
  | inr hsentry =>
    rw [hsentry]
    exact ⟨L.sentry_ne_null, L.sentry_ne_head⟩

/-- **`__next`** of a listed process. -/
theorem Built.next_listed (h : Built L s ps) {l : List Nat} (hsplit : ps = l ++ p :: q) :
    s.next L p = some (q.headD L.sentry) := by
  have hmem : p ∈ ps := by simp [hsplit]
  have hproper := h.proper p hmem
  have hring : s.ring.next (.node p) = Ring.firstHook q := by
    have hholds : s.ring.Holds ((l ++ [p]) ++ q) := by simpa [hsplit] using h.holds
    have hlast : Ring.lastHook (l ++ [p]) = .node p := by simp [Ring.lastHook]
    rw [← hlast]
    exact hholds.next_lastHook
  have hin : InRing L ps (q.headD L.sentry) := headD_inRing fun x hx => by simp [hsplit, hx]
  rw [SchedList.next, SchedList.link, if_neg hproper.ne_null, schedNode, if_neg hproper.ne_sentry,
    hring, Option.map_some, listEntry_firstHook]
  dsimp only
  rw [if_neg (h.ring_ne hin).2]

/-- `__next` of the process around the sentinel. -/
theorem Built.next_sentry (h : Built L s ps) : s.next L L.sentry = some (ps.headD L.sentry) := by
  have hring : s.ring.next .head = Ring.firstHook ps := h.holds.next_lastHook (l := [])
  have hin : InRing L ps (ps.headD L.sentry) := headD_inRing fun x hx => hx
  rw [SchedList.next, SchedList.link, if_neg L.sentry_ne_null, schedNode, if_pos rfl, hring,
    Option.map_some, listEntry_firstHook]
  rw [if_neg (h.ring_ne hin).2]

theorem Built.next_inRing (h : Built L s ps) (hp : InRing L ps p) :
    ∃ p', s.next L p = some p' ∧ InRing L ps p' := by
  cases hp with
  | inl hmem =>
    obtain ⟨l, q, hsplit⟩ := List.append_of_mem hmem
    exact ⟨_, h.next_listed hsplit, headD_inRing fun x hx => by simp [hsplit, hx]⟩
  | inr hsentry =>
    rw [hsentry]
    exact ⟨_, h.next_sentry, headD_inRing fun x hx => hx⟩

theorem next_null : s.next L 0 = some 0 ↔
    s.null = some (.node 0) ∨ s.null = some (.node L.head) := by
  rw [SchedList.next, SchedList.link, if_pos rfl]
  cases hnull : s.null with
  | none => simp
  | some r =>
    cases r with
    | head =>
      have hsentry : listEntry L .head = L.sentry := rfl
      simp [hsentry, L.sentry_ne_head, L.sentry_ne_null]
    | node p =>
      by_cases hp : p = L.head
      · simp [listEntry, hp]
      · simp [listEntry, hp]

/-! ### Iteration -/

/-- Starting with `next(p)` and applying `next` again and again visits `xs`, and then yields
`NULL`. -/
def Visits (L : Layout) (s : SchedList) : Nat → List Nat → Prop
  | p, [] => s.next L p = some 0
  | p, x :: xs => s.next L p = some x ∧ x ≠ 0 ∧ Visits L s x xs

/-- No iteration comes to an end in the ring. -/
theorem Built.not_visits (h : Built L s ps) (hp : InRing L ps p) (xs : List Nat) :
    ¬ Visits L s p xs := by
  induction xs generalizing p with
  | nil =>
    intro hend
    obtain ⟨p', hnext, hin⟩ := h.next_inRing hp
    have hzero : p' = 0 := Option.some.inj (hnext.symm.trans hend)
    exact (h.ring_ne hin).1 hzero
  | cons x xs ih =>
    rintro ⟨hx, -, hrest⟩
    obtain ⟨p', hnext, hin⟩ := h.next_inRing hp
    have hsame : p' = x := Option.some.inj (hnext.symm.trans hx)
    exact ih (hsame ▸ hin) hrest

theorem Visits.meets {xs : List Nat} (h : Visits L s p xs) (hx : x ∈ xs) :
    ∃ ys, Visits L s x ys := by
  induction xs generalizing p with
  | nil => cases hx
  | cons y xs ih =>
    obtain ⟨-, -, hrest⟩ := h
    cases List.mem_cons.mp hx with
    | inl heq => exact ⟨xs, heq ▸ hrest⟩
    | inr hmem => exact ih hrest hmem

theorem Built.visits_iff (h : Built L s ps) : (∃ xs, Visits L s 0 xs ∧ xs.Perm ps) ↔
    ps = [] ∧ (s.null = some (.node 0) ∨ s.null = some (.node L.head)) := by
  constructor
  · rintro ⟨xs, hvisits, hperm⟩
    cases ps with
    | nil =>
      obtain rfl := hperm.eq_nil
      exact ⟨rfl, next_null.mp hvisits⟩
    | cons p ps =>
      obtain ⟨ys, hys⟩ := hvisits.meets (hperm.mem_iff.mpr List.mem_cons_self)
      exact absurd hys (h.not_visits (.inl List.mem_cons_self) ys)
  · rintro ⟨rfl, hnull⟩
    exact ⟨[], next_null.mpr hnull, .nil⟩

/-- What `__find` is to return. -/
def Finds (s : SchedList) (ps : List Nat) (pid : Int) (r : Nat) : Prop :=
  r ∈ ps ∧ (s.proc r).pid = pid ∨ (∀ x ∈ ps, (s.proc x).pid ≠ pid) ∧ r = 0

theorem Built.finds_iff (h : Built L s ps) (hfuel : ps.length < fuel) (pid : Int) :
    (∃ r, s.find L fuel pid = some r ∧ Finds s ps pid r) ↔ ∃ p ∈ ps, (s.proc p).pid = pid := by
  rw [h.find_eq hfuel]
  cases hfind : ps.find? fun a => (s.proc a).pid = pid with
  | none =>
    have hnone : ∀ p ∈ ps, (s.proc p).pid ≠ pid := by simpa using hfind
    constructor
    · rintro ⟨r, hr, hfinds⟩
      obtain rfl : L.sentry = r := Option.some.inj hr
      cases hfinds with
      | inl hthere => exact ⟨_, hthere⟩
      | inr hzero => exact absurd hzero.2 L.sentry_ne_null
    · rintro ⟨p, hp, hpid⟩
      exact absurd hpid (hnone p hp)
  | some p =>
    have hmem := List.mem_of_find?_eq_some hfind
    have hpid : (s.proc p).pid = pid := by simpa using List.find?_some hfind
    exact ⟨fun _ => ⟨p, hmem, hpid⟩, fun _ => ⟨p, rfl, .inl ⟨hmem, hpid⟩⟩⟩

/-! ### Waking up -/

/-- The process sleeps on the bed. -/
def Sleeps (s : SchedList) (bed p : Nat) : Prop :=
  (s.proc p).bed = bed ∧ (s.proc p).state = .sleeping

/-- What `wakeup` is to do. -/
def WakesExactly (L : Layout) (s : SchedList) (ps : List Nat) (bed : Nat) : Prop :=
  ∃ fuel s', wakeup L fuel bed s = .ok s' ∧ s'.ring = s.ring ∧ s'.null = s.null ∧ ∀ p,
    (p ∈ ps ∧ Sleeps s bed p → s'.proc p = { s.proc p with state := .runnable }) ∧
    (¬ (p ∈ ps ∧ Sleeps s bed p) → s'.proc p = s.proc p)

theorem spinLock_held (h : s.locked = true) : spinLock fuel s = .error .running := by
  induction fuel with
  | zero => rfl
  | succ fuel ih => rw [spinLock, if_pos h, ih]

theorem spinLock_cases (fuel : Nat) (s : SchedList) :
    spinLock fuel s = .error .running ∨ spinLock fuel s = .ok { s with locked := true } := by
  cases hlocked : s.locked with
  | true => exact .inl (spinLock_held hlocked)
  | false =>
    cases fuel with
    | zero => exact .inl rfl
    | succ fuel => exact .inr (by simp [spinLock, hlocked])

/-- **`wakeup`** takes the lock, and then waits for it in `proc_next`. -/
theorem wakeup_waits (L : Layout) (fuel bed : Nat) (s : SchedList) :
    wakeup L fuel bed s = .error .running := by
  rcases spinLock_cases fuel s with hwait | htaken
  · rw [wakeup, hwait]
    rfl
  · have hnext : procNext L fuel 0 { s with locked := true } = .error .running := by
      rw [procNext, spinLock_held rfl]
      rfl
    rw [wakeup, htaken]
    change (procNext L fuel 0 { s with locked := true } >>= _) = _
    rw [hnext]
    rfl

end Walk

/-- **Iteration and search.** `find` is right if and only if a listed process has the number.
`next` of a listed process is right if and only if it is not the last one. An iteration from `NULL`
visits the listed processes and ends if and only if there are none and what is read through `NULL`
passes for the end. `wakeup` does not do its work on any list. -/
theorem iteration_exact_iff {L : Layout} {s : SchedList} {ps : List Nat} (h : Built L s ps) :
    (∀ fuel pid, ps.length < fuel →
      ((∃ r, s.find L fuel pid = some r ∧ Finds s ps pid r) ↔ ∃ p ∈ ps, (s.proc p).pid = pid)) ∧
    (∀ l p q, ps = l ++ p :: q → (s.next L p = some (q.headD 0) ↔ q ≠ [])) ∧
    ((∃ xs, Visits L s 0 xs ∧ xs.Perm ps) ↔
      ps = [] ∧ (s.null = some (.node 0) ∨ s.null = some (.node L.head))) ∧
    ∀ bed, ¬ WakesExactly L s ps bed := by
  refine ⟨?_, ?_, h.visits_iff, ?_⟩
  · intro fuel pid hfuel
    exact h.finds_iff hfuel pid
  · intro l p q hsplit
    rw [h.next_listed hsplit]
    cases q with
    | nil => simp [L.sentry_ne_null]
    | cons x q => simp
  · rintro bed ⟨fuel, s', hrun, -⟩
    rw [wakeup_waits] at hrun
    cases hrun

/-- The number of the second of two processes, and the step there from the first. -/
theorem iteration_exact_two_procs :
    (∃ r, twoProcs.find kernelLayout 3 0x80300000 = some r ∧
      Finds twoProcs [0x80301000, 0x80300000] 0x80300000 r) ∧
    twoProcs.next kernelLayout 0x80301000 = some 0x80300000 := by
  obtain ⟨hfind, hnext, -⟩ := iteration_exact_iff twoProcs_built
  refine ⟨(hfind 3 0x80300000 (by decide)).mpr ?_, (hnext [] _ _ rfl).mpr (by simp)⟩
  exact ⟨0x80300000, List.mem_cons_of_mem _ List.mem_cons_self, rfl⟩

/-- Behind the only process, and for a number that no process has, comes the address of a process
around the sentinel, and the access through `NULL` faults. -/
theorem next_behind_last :
    (somewhere.init.add 0x80300000).next kernelLayout 0x80300000 = some 0x800ffe08 ∧
      (somewhere.init.add 0x80300000).next kernelLayout 0x800ffe08 = some 0x80300000 ∧
      (somewhere.init.add 0x80300000).find kernelLayout 2 1 = some 0x800ffe08 ∧
      (somewhere.init.add 0x80300000).next kernelLayout 0 = none ∧
      (wakeup kernelLayout 9 7 (somewhere.init.add 0x80300000)).toOption.isNone = true := by
  decide +kernel

end AimKernel.PlainScheduler
