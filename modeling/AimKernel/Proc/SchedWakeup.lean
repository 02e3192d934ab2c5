import AimKernel.Proc.SchedInv

/-!
# AimKernel.Proc.SchedWakeup

No wakeup is lost between `sleep_with_lock` and `wakeup`.

A process goes to sleep for a condition that a lock protects, and it holds the lock until
it has `sched_lock`. Changes of the condition are counted (`version`); `seen` is the count
a process knows of, from when it last held the lock. A `wakeup` entered at count `v`
promises that nobody who knows less than `v` is asleep on the bed when it is over: such a
process released the lock before the change, hence had `sched_lock` before the `wakeup`
got it, hence is asleep, on its bed and listed, when the walk begins.
-/

namespace AimKernel.Sched

open Function (update update_eq_self update_of_ne update_self)

variable {s t : State} {c c' : Nat} {pc : Pc} {allowed : State → Nat → Call → Prop}

/-- `schedule`, `wakeup`, and `sleep_with_lock` by the process that holds the lock. -/
def Sleepers (s : State) (c : Nat) : Call → Prop
  | .schedule _ | .wakeup _ => True
  | .sleepWithLock _ lock => ∀ l, lock = some l → s.locks l = some (s.cur c)
  | _ => False

theorem Sleepers.congr {k : Call} (hlocks : t.locks = s.locks) (hcur : t.cur c = s.cur c) :
    Sleepers t c k ↔ Sleepers s c k := by
  cases k <;> simp only [Sleepers, hlocks, hcur]

/-- The call a CPU is entering. -/
def Pc.calls : Pc → Option Call
  | .acquire k _ | .body k _ => some k
  | _ => none

/-- The lock a process has released to go to sleep, before it is marked as sleeping. -/
def Pc.falling : Pc → Option Nat
  | .setBed _ lock _ | .setState _ lock _ => lock
  | _ => none

/-- The bed of a `wakeup`, and the processes it has still to visit. -/
def Pc.pending : Pc → Option (Nat × List Nat)
  | .walk bed _ rest => some (bed, rest)
  | .visit bed _ n rest => some (bed, n :: rest)
  | .release (.wakeup bed) _ => some (bed, [])
  | _ => none

/-- Process `n` sleeps and has released lock `l` for it. -/
structure Asleep (s : State) (n l : Nat) : Prop where
  listed : n ∈ s.listed
  sleeping : s.state (.other n) = .sleeping
  slept : s.slept (.other n) = some l

/-- Counts are in order, a process that holds a lock knows all changes, and so does, up to
those with a `wakeup` still to come, a process that is asleep or falling asleep. -/
structure Awaited (s : State) : Prop where
  served : ∀ b l, s.served b l ≤ s.version l
  called : ∀ c l, s.called c l ≤ s.version l
  held : ∀ p l, s.locks l = some p → s.seen p l = s.version l
  calls : ∀ c k, (s.pc c).calls = some k → Sleepers s c k
  falling : ∀ c l, (s.pc c).falling = some l → ∀ b, s.served b l ≤ s.seen (s.cur c) l
  asleep : ∀ n l, Asleep s n l → s.served (s.bed (.other n)) l ≤ s.seen (.other n) l
  pending : ∀ c b rest, (s.pc c).pending = some (b, rest) → ∀ n l, Asleep s n l →
    s.bed (.other n) = b → s.seen (.other n) l < s.called c l → n ∈ rest

theorem Pc.Ready.calls (h : pc.Ready) : pc.calls = none := by
  cases pc <;> first | rfl | exact h.elim

theorem Pc.Ready.falling (h : pc.Ready) : pc.falling = none := by
  cases pc <;> first | rfl | exact h.elim

theorem Pc.Ready.pending (h : pc.Ready) : pc.pending = none := by
  cases pc with
  | release k flags => cases k <;> first | rfl | exact h.elim
  | _ => first | rfl | exact h.elim

theorem Pc.critical_of_falling {l : Nat} (h : pc.falling = some l) : pc.critical = true := by
  cases pc <;> first | rfl | exact nomatch h

theorem Pc.critical_of_pending {x : Nat × List Nat} (h : pc.pending = some x) :
    pc.critical = true := by
  cases pc <;> first | rfl | exact nomatch h

namespace Awaited

variable {flags : Bool} {p : ProcId} {bed l n : Nat} {lock : Option Nat}

theorem of_init (h : Init s) : Awaited s where
  served b l := by simp [h.served]
  called c l := by simp [h.called]
  held p l hheld := by simp [h.locks] at hheld
  calls c k hcalls := by simp [h.pc, Pc.calls] at hcalls
  falling c l hfalling := by simp [h.pc, Pc.falling] at hfalling
  asleep n l _ := by simp [h.served]
  pending c b rest hpending := by simp [h.pc, Pc.pending] at hpending

/-- A CPU moves to `pc`, where it may read the counts, and neither the locks nor the counts
change; processes may be woken, and nothing else happens to one that sleeps. -/
theorem of_move (h : Awaited s) (hpc : t.pc c = pc)
    (hpcs : ∀ c', c' ≠ c → t.pc c' = s.pc c') (hcurs : ∀ c', c' ≠ c → t.cur c' = s.cur c')
    (hlocks : t.locks = s.locks) (hversion : t.version = s.version) (hseen : t.seen = s.seen)
    (hcalled : ∀ c', c' ≠ c → t.called c' = s.called c') (hread : ∀ l, t.called c l ≤ s.version l)
    (hserved : t.served = s.served)
    (hasleep : ∀ n l, Asleep t n l → Asleep s n l ∧ t.bed (.other n) = s.bed (.other n))
    (hcalls : ∀ k, pc.calls = some k → Sleepers t c k)
    (hfalling : ∀ l, pc.falling = some l → ∀ b, t.served b l ≤ t.seen (t.cur c) l)
    (hpending : ∀ b rest, pc.pending = some (b, rest) → ∀ n l, Asleep t n l →
      t.bed (.other n) = b → t.seen (.other n) l < t.called c l → n ∈ rest) : Awaited t := by
  subst hpc
  constructor
  case served => rw [hserved, hversion]; exact h.served
  case called =>
    intro c' l
    rw [hversion]
    by_cases hc : c' = c
    · subst hc
      exact hread l
    · rw [hcalled c' hc]
      exact h.called c' l
  case held => rw [hlocks, hversion, hseen]; exact h.held
  case calls =>
    intro c' k hk
    by_cases hc : c' = c
    · subst hc
      exact hcalls k hk
    · rw [hpcs c' hc] at hk
      exact (Sleepers.congr hlocks (hcurs c' hc)).mpr (h.calls c' k hk)
  case falling =>
    intro c' l hl b
    by_cases hc : c' = c
    · subst hc
      exact hfalling l hl b
    · rw [hpcs c' hc] at hl
      rw [hserved, hseen, hcurs c' hc]
      exact h.falling c' l hl b
  case asleep =>
    intro n l hn
    obtain ⟨hbefore, hbed⟩ := hasleep n l hn
    rw [hserved, hseen, hbed]
    exact h.asleep n l hbefore
  case pending =>
    intro c' b rest hrest n l hn hbed hlt
    by_cases hc : c' = c
    · subst hc
      exact hpending b rest hrest n l hn hbed hlt
    · obtain ⟨hbefore, hsame⟩ := hasleep n l hn
      rw [hpcs c' hc] at hrest
      rw [hsame] at hbed
      rw [hseen, hcalled c' hc] at hlt
      exact h.pending c' b rest hrest n l hbefore hbed hlt

theorem enter (h : Awaited s) {k : Call} (hk : Sleepers s c k) :
    Awaited { s.goto c (.acquire k flags) with
      called := update s.called c s.version } := by
  refine h.of_move (update_self ..) (fun _ hc => update_of_ne hc ..) (fun _ _ => rfl) rfl rfl rfl
    (fun _ hc => update_of_ne hc ..) (fun l => ?_) rfl
    (fun _ _ hn => ⟨⟨hn.listed, hn.sleeping, hn.slept⟩, rfl⟩) (fun k' hk' => ?_)
    (fun _ hl => nomatch hl) fun _ _ hrest => nomatch hrest
  · simp
  · obtain rfl := Option.some.inj hk'
    exact (Sleepers.congr rfl rfl).mpr hk

/-- A process that holds lock `l` in the end learns the latest count. -/
theorem learn (h : Awaited s) {v : Nat} (hv : s.version l ≤ v) {locks : Nat → Option ProcId}
    (hlock : locks l = some p) (hlocks : ∀ l', l' ≠ l → locks l' = s.locks l')
    (hcalls : ∀ c k, (s.pc c).calls = some k → Sleepers { s with locks := locks } c k) :
    Awaited { s with
      locks := locks
      version := update s.version l v
      seen := update s.seen p (update (s.seen p) l v) } := by
  have hversion : ∀ l', s.version l' ≤ update s.version l v l' := by
    intro l'
    by_cases hl : l' = l
    · subst hl
      simpa using hv
    · simp [hl]
  have hcase : ∀ q l', update s.seen p (update (s.seen p) l v) q l' = s.seen q l' ∨
      q = p ∧ l' = l ∧ update s.seen p (update (s.seen p) l v) q l' = v := by
    intro q l'
    by_cases hq : q = p
    · subst hq
      by_cases hl : l' = l
      · simp [hl]
      · simp [hl]
    · simp [hq]
  constructor
  case served => exact fun b l' => Nat.le_trans (h.served b l') (hversion l')
  case called => exact fun c l' => Nat.le_trans (h.called c l') (hversion l')
  case held =>
    intro q l' hheld
    by_cases hl : l' = l
    · subst hl
      obtain rfl : p = q := Option.some.inj (hlock.symm.trans hheld)
      simp
    · have hbefore := h.held q l' ((hlocks l' hl).symm.trans hheld)
      rcases hcase q l' with hseen | ⟨-, heq, -⟩
      · simp only [hseen, update_of_ne hl, hbefore]
      · exact absurd heq hl
  case calls => exact fun c k hk => (Sleepers.congr rfl rfl).mpr (hcalls c k hk)
  case falling =>
    intro c l' hl b
    rcases hcase (s.cur c) l' with hseen | ⟨-, rfl, hseen⟩
    · simp only [hseen]
      exact h.falling c l' hl b
    · simp only [hseen]
      exact Nat.le_trans (h.served b l') hv
  case asleep =>
    intro n l' hn
    rcases hcase (.other n) l' with hseen | ⟨-, rfl, hseen⟩
    · simp only [hseen]
      exact h.asleep n l' ⟨hn.listed, hn.sleeping, hn.slept⟩
    · simp only [hseen]
      exact Nat.le_trans (h.served _ l') hv
  case pending =>
    intro c b rest hrest n l' hn hbed hlt
    rcases hcase (.other n) l' with hseen | ⟨-, rfl, hseen⟩
    · simp only [hseen] at hlt
      exact h.pending c b rest hrest n l' ⟨hn.listed, hn.sleeping, hn.slept⟩ hbed hlt
    · -- nobody entered a `wakeup` with a larger count
      simp only [hseen] at hlt
      exact absurd (Nat.le_trans (h.called c l') hv) (Nat.not_le.mpr hlt)

theorem grab (h : Awaited s) (hfree : s.locks l = none) :
    Awaited (s.grab p l) := by
  have hcalls : ∀ c k, (s.pc c).calls = some k →
      Sleepers { s with locks := update s.locks l (some p) } c k := by
    intro c k hk
    have hbefore := h.calls c k hk
    cases k with
    | sleepWithLock bed lock =>
      intro l' hl'
      have hheld := hbefore l' hl'
      have hne : l' ≠ l := by
        rintro rfl
        exact nomatch hheld.symm.trans hfree
      simpa [hne] using hheld
    | _ => exact hbefore
  have hlearn := h.learn (Nat.le_refl (s.version l)) (update_self l (some p) s.locks)
    (fun l' hl => update_of_ne hl ..) hcalls
  rw [update_eq_self] at hlearn
  exact hlearn

/-- A process that holds a lock changes the condition. -/
theorem change (h : Awaited s) (hheld : s.locks l = some p) :
    Awaited (s.change p l) :=
  h.learn (Nat.le_succ (s.version l)) hheld (fun _ _ => rfl)
    (fun c k hk => (Sleepers.congr rfl rfl).mpr (h.calls c k hk))

/-- A lock is released that nobody goes to sleep with. -/
theorem unlock (h : Awaited s)
    (hcalls : ∀ c bed l, lock = some l → (s.pc c).calls ≠ some (.sleepWithLock bed (some l))) :
    Awaited (s.unlock lock) := by
  cases lock with
  | none => exact h
  | some l =>
    constructor
    case served => exact h.served
    case called => exact h.called
    case held =>
      intro p l' hheld
      by_cases hl : l' = l
      · subst hl
        simp [State.unlock] at hheld
      · exact h.held p l' (by simpa [State.unlock, hl] using hheld)
    case calls =>
      intro c k hk
      have hbefore := h.calls c k hk
      cases k with
      | sleepWithLock bed lock =>
        rintro l' rfl
        have hl : l' ≠ l := by
          rintro rfl
          exact hcalls c bed l' rfl hk
        simpa [State.unlock, hl] using hbefore l' rfl
      | _ => exact hbefore
    case falling => exact h.falling
    case asleep => exact fun n l' hn => h.asleep n l' ⟨hn.listed, hn.sleeping, hn.slept⟩
    case pending =>
      exact fun c b rest hrest n l' hn =>
        h.pending c b rest hrest n l' ⟨hn.listed, hn.sleeping, hn.slept⟩

/-- The lock of a process going to sleep is not that of another. -/
theorem calls_unique (h : Awaited s) (hinv : Inv s) (hheld : s.locks l = some p)
    (hcur : s.cur c = p) (hcalls : (s.pc c').calls = some (.sleepWithLock bed (some l)))
    : c' = c := by
  have hother := h.calls c' _ hcalls l rfl
  refine hinv.inj c' c ?_
  rw [hcur]
  exact Option.some.inj (hother.symm.trans hheld)

theorem fall (h : Awaited s) (hinv : Inv s)
    (hpc : s.pc c = .setState bed lock flags) {ret : Resume} :
    Awaited { (s.setState (s.cur c) .sleeping).goto c (.switchTo (.idle c) ret) with
      slept := update s.slept (s.cur c) lock } := by
  have hout : ∀ c', c' ≠ c → (s.pc c').critical = false :=
    fun c' hc => hinv.not_critical (c := c) (by rw [hpc]; rfl) hc
  constructor
  case served => exact h.served
  case called => exact h.called
  case held => exact h.held
  case calls =>
    intro c' k hk
    by_cases hc : c' = c
    · subst hc
      simp [State.goto, Pc.calls] at hk
    · exact (Sleepers.congr rfl rfl).mpr (h.calls c' k (by simpa [State.goto, State.setState, hc] using hk))
  case falling =>
    intro c' l hl
    by_cases hc : c' = c
    · subst hc
      simp [State.goto, Pc.falling] at hl
    · exact h.falling c' l (by simpa [State.goto, State.setState, hc] using hl)
  case asleep =>
    intro n l hn
    by_cases hcur : ProcId.other n = s.cur c
    · -- the process that falls asleep knows what any `wakeup` that is over was about
      have hlock : lock = some l := by
        have hslept := hn.slept
        rw [hcur] at hslept
        simpa using hslept
      have hknown := h.falling c l (by rw [hpc]; exact hlock) (s.bed (.other n))
      rw [← hcur] at hknown
      exact hknown
    · refine h.asleep n l ⟨hn.listed, ?_, ?_⟩
      · simpa [State.setState, State.goto, hcur] using hn.sleeping
      · simpa [hcur] using hn.slept
  case pending =>
    intro c' b rest hrest
    by_cases hc : c' = c
    · subst hc
      simp [State.goto, Pc.pending] at hrest
    · have hcritical := Pc.critical_of_pending (by simpa [State.goto, State.setState, hc] using hrest)
      rw [hout c' hc] at hcritical
      exact Bool.noConfusion hcritical

theorem serve (h : Awaited s) (hinv : Inv s) (hpc : s.pc c = .release (.wakeup bed) flags) :
    Awaited (s.serve c (.wakeup bed)) := by
  have hout : ∀ c', c' ≠ c → (s.pc c').critical = false :=
    fun c' hc => hinv.not_critical (c := c) (by rw [hpc]; rfl) hc
  have hcase : ∀ b l, (s.serve c (.wakeup bed)).served b l =
      if b = bed then max (s.served b l) (s.called c l) else s.served b l := by
    intro b l
    by_cases hb : b = bed
    · subst hb
      simp [State.serve]
    · simp [State.serve, hb]
  constructor
  case served =>
    intro b l
    rw [hcase]
    split
    · exact Nat.max_le.mpr ⟨h.served b l, h.called c l⟩
    · exact h.served b l
  case called => exact h.called
  case held => exact h.held
  case calls => exact fun c' k hk => (Sleepers.congr rfl rfl).mpr (h.calls c' k hk)
  case falling =>
    intro c' l hl
    have hcritical := Pc.critical_of_falling hl
    by_cases hc : c' = c
    · subst hc
      have hnone := (congrArg Pc.falling hpc).symm.trans hl
      cases hnone
    · exact Bool.noConfusion ((hout c' hc).symm.trans hcritical)
  case asleep =>
    intro n l hn
    have hbefore : Asleep s n l := ⟨hn.listed, hn.sleeping, hn.slept⟩
    have hknown := h.asleep n l hbefore
    show (s.serve c (.wakeup bed)).served (s.bed (.other n)) l ≤ s.seen (.other n) l
    rw [hcase]
    split
    next hbed =>
      -- all processes have been visited
      refine Nat.max_le.mpr ⟨hknown, Nat.le_of_not_lt fun hlt => ?_⟩
      have hleft := h.pending c bed [] (by rw [hpc]; rfl) n l hbefore hbed hlt
      exact List.not_mem_nil hleft
    next => exact hknown
  case pending =>
    exact fun c' b rest hrest n l hn =>
      h.pending c' b rest hrest n l ⟨hn.listed, hn.sleeping, hn.slept⟩

/-- A CPU goes on within a call, as `hcalls`, `hfalling` and `hpending` say. -/
theorem goOn (h : Awaited s) (hcalls : ∀ k, pc.calls = some k → Sleepers s c k)
    (hfalling : ∀ l, pc.falling = some l → ∀ b, s.served b l ≤ s.seen (s.cur c) l)
    (hpending : ∀ b rest, pc.pending = some (b, rest) → ∀ n l, Asleep s n l →
      s.bed (.other n) = b → s.seen (.other n) l < s.called c l → n ∈ rest) :
    Awaited (s.goto c pc) :=
  h.of_move (update_self ..) (fun _ hc => update_of_ne hc ..)
    (fun _ _ => rfl) rfl rfl rfl (fun _ _ => rfl) (h.called c) rfl
    (fun _ _ hn => ⟨⟨hn.listed, hn.sleeping, hn.slept⟩, rfl⟩)
    (fun k hk => (Sleepers.congr rfl rfl).mpr (hcalls k hk)) hfalling
    fun b rest hrest n l hn => hpending b rest hrest n l ⟨hn.listed, hn.sleeping, hn.slept⟩

/-- A CPU moves on to where it is entering no call, going to no sleep and waking nobody;
the sleeping processes stay as they are. -/
theorem goto (h : Awaited s) (hcalls : pc.calls = none) (hfalling : pc.falling = none)
    (hpending : pc.pending = none) : Awaited (s.goto c pc) :=
  h.goOn (fun _ hk => nomatch hcalls.symm.trans hk) (fun _ hl => nomatch hfalling.symm.trans hl)
    fun _ _ hrest => nomatch hpending.symm.trans hrest

/-- The invariant reads only some of the fields. -/
theorem of_eq (h : Awaited s) (hpc : t.pc = s.pc) (hcur : t.cur = s.cur)
    (hlocks : t.locks = s.locks) (hversion : t.version = s.version) (hseen : t.seen = s.seen)
    (hcalled : t.called = s.called) (hserved : t.served = s.served)
    (hasleep : ∀ n l, Asleep t n l → Asleep s n l ∧ t.bed (.other n) = s.bed (.other n)) :
    Awaited t := by
  have hsleepers : ∀ c k, Sleepers s c k → Sleepers t c k :=
    fun c k hk => (Sleepers.congr hlocks (congrFun hcur c)).mpr hk
  refine h.of_move (c := 0) (congrFun hpc 0) (fun c' _ => congrFun hpc c')
    (fun c' _ => congrFun hcur c') hlocks hversion hseen (fun c' _ => congrFun hcalled c')
    (hcalled ▸ h.called 0) hserved hasleep ?_ ?_ ?_
  · exact fun k hk => hsleepers 0 k (h.calls 0 k hk)
  · intro l hl b
    rw [hserved, hseen, hcur]
    exact h.falling 0 l hl b
  · intro b rest hrest n l hn hbed hlt
    obtain ⟨hbefore, hsame⟩ := hasleep n l hn
    rw [hsame] at hbed
    rw [hseen, hcalled] at hlt
    exact h.pending 0 b rest hrest n l hbefore hbed hlt

theorem of_same (h : Awaited s)
    (hsame : (t.pc, t.cur, t.locks, t.version, t.seen, t.called, t.served, t.listed, t.state,
      t.slept, t.bed) = (s.pc, s.cur, s.locks, s.version, s.seen, s.called, s.served, s.listed, s.state,
      s.slept, s.bed)) : Awaited t := by
  simp only [Prod.mk.injEq] at hsame
  obtain ⟨hpc, hcur, hlocks, hversion, hseen, hcalled, hserved, hlisted, hstate, hslept, hbed⟩ :=
    hsame
  refine h.of_eq hpc hcur hlocks hversion hseen hcalled hserved fun n l hn => ⟨⟨?_, ?_, ?_⟩, ?_⟩
  · exact hlisted ▸ hn.listed
  · exact hstate ▸ hn.sleeping
  · exact hslept ▸ hn.slept
  · rw [hbed]

/-- A process that a CPU claims does not sleep. -/
theorem not_asleep (hinv : Inv s) (hclaimed : (s.pc c).claimed (s.cur c) = some (s.cur c))
    (hn : Asleep s n l) : ProcId.other n ≠ s.cur c := by
  intro hcur
  have hmarked := (hinv.onproc c n).mp (by rw [hclaimed, hcur])
  exact nomatch hn.sleeping.symm.trans hmarked.1

/-- Writing the state of a process other than to put it to sleep. -/
theorem setState (h : Awaited s) {x : ProcState} (hx : x ≠ .sleeping) :
    Awaited (s.setState p x) := by
  refine h.of_eq rfl rfl rfl rfl rfl rfl rfl fun n l hn => ⟨⟨hn.listed, ?_, hn.slept⟩, rfl⟩
  have hsleeping := hn.sleeping
  by_cases hp : ProcId.other n = p
  · subst hp
    exact absurd (by simpa [State.setState] using hsleeping) hx
  · simpa [State.setState, hp] using hsleeping

theorem setBed (h : Awaited s) (hinv : Inv s) {b : Nat}
    (hclaimed : (s.pc c).claimed (s.cur c) = some (s.cur c)) :
    Awaited (s.setBed (s.cur c) b) := by
  refine h.of_eq rfl rfl rfl rfl rfl rfl rfl fun n l hn => ?_
  have hbefore : Asleep s n l := ⟨hn.listed, hn.sleeping, hn.slept⟩
  exact ⟨hbefore, update_of_ne (not_asleep hinv hclaimed hbefore) ..⟩

/-- `sleep_with_lock` releases its lock. From here on the condition may change, but no
`wakeup` can get past the process before it is asleep. -/
theorem sleepUnlock (h : Awaited s) (hinv : Inv s)
    (hpc : s.pc c = .body (.sleepWithLock bed lock) flags) :
    Awaited ((s.unlock lock).goto c (.setBed bed lock flags)) := by
  have hheld : ∀ l, lock = some l → s.locks l = some (s.cur c) :=
    h.calls c (.sleepWithLock bed lock) (by rw [hpc]; rfl)
  have hmoved : Awaited (s.goto c (.setBed bed lock flags)) := by
    refine h.goOn (fun _ hk => nomatch hk) (fun l hl b => ?_) fun _ _ hrest => nomatch hrest
    rw [h.held _ l (hheld l hl)]
    exact h.served b l
  have hunlocked : Awaited ((s.goto c (.setBed bed lock flags)).unlock lock) := by
    refine hmoved.unlock fun c' bed' l hl hcalls => ?_
    by_cases hc : c' = c
    · subst hc
      simp [State.goto, Pc.calls] at hcalls
    · exact hc (h.calls_unique hinv (hheld l hl) rfl (by simpa [State.goto, hc] using hcalls))
  cases lock <;> exact hunlocked

theorem visit (h : Awaited s) {rest : List Nat} (hpc : s.pc c = .visit bed flags n rest) :
    Awaited ((if s.bed (.other n) = bed ∧ s.state (.other n) = .sleeping then
      s.setState (.other n) .runnable else s).goto c (.walk bed flags rest)) := by
  have hleft := h.pending c bed (n :: rest) (by rw [hpc]; rfl)
  split
  next hsleeping =>
    refine (h.setState ProcState.noConfusion).goOn (fun _ hk => nomatch hk) (fun _ hl => nomatch hl)
      fun b rest' hrest m l hm hbed hlt => ?_
    cases hrest
    have hne : m ≠ n := by
      rintro rfl
      have hwoken := hm.sleeping
      simp [State.setState] at hwoken
    have hbefore : Asleep s m l :=
      ⟨hm.listed, by simpa [State.setState, hne] using hm.sleeping, hm.slept⟩
    exact (List.mem_cons.mp (hleft m l hbefore hbed hlt)).resolve_left hne
  next hother =>
    refine h.goOn (fun _ hk => nomatch hk) (fun _ hl => nomatch hl)
      fun b rest' hrest m l hm hbed hlt => ?_
    cases hrest
    refine (List.mem_cons.mp (hleft m l hm hbed hlt)).resolve_left ?_
    rintro rfl
    exact hother ⟨hbed, hm.sleeping⟩

theorem step (h : Awaited s) (hinv : Inv s) (hstep : Step false Sleepers c s t) : Awaited t := by
  cases hstep with
  | call k hpc hallowed hk hold =>
    exact (h.enter hallowed).of_same rfl
  | acquire k flags hpc hfree =>
    have hmoved : Awaited (s.goto c (.body k flags)) := by
      refine h.goOn (fun k' hk' => ?_) (fun _ hl => nomatch hl) fun _ _ hrest => nomatch hrest
      exact h.calls c k' (by rw [hpc]; exact hk')
    exact hmoved.of_same rfl
  | schedule oldproc flags hpc hassert =>
    split
    · exact (h.setState ProcState.noConfusion).goto rfl rfl rfl
    · exact h.goto rfl rfl rfl
  | panic oldproc flags hpc hassert => exact h.goto rfl rfl rfl
  | pickSome oldproc flags n hpc hlisted hrunnable => exact h.goto rfl rfl rfl
  | pickNone oldproc flags hpc => exact h.goto rfl rfl rfl
  | update oldproc newproc flags hpc =>
    have hmarked : Awaited (s.updateProc c newproc) :=
      (h.setState ProcState.noConfusion).of_same rfl
    exact hmarked.goto rfl rfl rfl
  | switchTo proc ret hpc =>
    exact h.of_move (update_self ..) (fun _ hc => update_of_ne hc ..)
      (fun _ hc => update_of_ne hc ..) rfl rfl rfl (fun _ _ => rfl) (h.called c) rfl
      (fun _ _ hn => ⟨⟨hn.listed, hn.sleeping, hn.slept⟩, rfl⟩) (fun _ hk => nomatch hk)
      (fun _ hl => nomatch hl) (fun _ _ hrest => nomatch hrest)
  | saveRegs current proc ret hpc =>
    exact (h.goto rfl rfl rfl).of_same rfl
  | loadRegs proc hpc =>
    have hready := hinv.ready proc (hinv.loads_saved hpc)
    exact (h.goto hready.calls hready.falling hready.pending).of_same rfl
  | sleepUnlock bed lock flags hpc => exact h.sleepUnlock hinv hpc
  | setBed bed lock flags hpc =>
    refine (h.setBed hinv (by rw [hpc]; rfl)).goOn (fun _ hk => nomatch hk) (fun l hl => ?_)
      fun _ _ hrest => nomatch hrest
    exact h.falling c l (by rw [hpc]; exact hl)
  | setState bed lock flags hpc => exact h.fall hinv hpc
  | woken bed lock flags hpc => exact (h.setBed hinv (by rw [hpc]; rfl)).goto rfl rfl rfl
  | wakeup bed flags hpc =>
    refine h.goOn (fun _ hk => nomatch hk) (fun _ hl => nomatch hl) fun b rest hrest n l hn _ _ => ?_
    cases hrest
    exact hn.listed
  | fetch bed flags rest hmode hpc =>
    have hleft := h.pending c bed rest (by rw [hpc]; rfl)
    cases rest with
    | nil | cons =>
      refine h.goOn (fun _ hk => nomatch hk) (fun _ hl => nomatch hl) fun b rest' hrest => ?_
      cases hrest
      exact hleft
  | fetchSave bed flags rest hmode hpc => exact Bool.noConfusion hmode
  | fetchLock bed flags rest hpc hfree =>
    have hheld := (hinv.lock c).mpr (by rw [hpc]; rfl)
    exact nomatch hheld.symm.trans hfree
  | visit bed flags n rest hpc => exact h.visit hpc
  | procAdd n flags hpc | procRemove n flags hpc | setScheduler sch flags hpc
  | procNext proc flags hpc =>
    have hcalls := h.calls c
    rw [hpc] at hcalls
    exact False.elim (hcalls _ rfl)
  | release k flags hpc =>
    cases k with
    | wakeup bed =>
      have hmoved : Awaited ((s.serve c (.wakeup bed)).goto c (.restore (.wakeup bed) flags)) :=
        (h.serve hinv hpc).goto rfl rfl rfl
      exact hmoved.of_same rfl
    | _ =>
      exact (h.goto rfl rfl rfl).of_same rfl
  | restore k flags hpc =>
    have hmoved : Awaited (s.goto c k.after) := by
      rcases k with _ | ⟨_, _ | _⟩ | _ | _ | _ | _ | _ | _ <;> exact h.goto rfl rfl rfl
    exact hmoved.of_same rfl
  | relock l hpc hfree => exact (h.grab hfree).goto rfl rfl rfl
  | userLock l hpc hfree => exact h.grab hfree
  | userUnlock l hpc hheld =>
    refine h.unlock fun c' bed l' hl hcalls => ?_
    cases hl
    obtain rfl := h.calls_unique hinv hheld rfl hcalls
    rw [hpc] at hcalls
    exact nomatch hcalls
  | change l hpc hheld => exact h.change hheld
  | setIe b hpc =>
    exact h.of_same rfl

end Awaited

/-! ### Whole runs -/

theorem awaited_run (hinit : Init s) (hrun : Run false Sleepers s t) : Inv t ∧ Awaited t := by
  induction hrun with
  | refl => exact ⟨.of_init hinit, .of_init hinit⟩
  | tail _ hstep ih =>
    obtain ⟨c, hstep⟩ := hstep
    refine ⟨ih.1.step (fun _ _ k hk => ?_) hstep, ih.2.step ih.1 hstep⟩
    rintro p rfl
    exact hk

/-- In a call of `wakeup(bed)`, up to the release of `sched_lock`. -/
def Pc.Serving (bed : Nat) : Pc → Prop
  | .acquire k _ | .body k _ | .release k _ => k = .wakeup bed
  | .walk b _ _ | .visit b _ _ _ => b = bed
  | _ => False

/-- In a call of `wakeup(bed)`. -/
def Pc.Waking (bed : Nat) (pc : Pc) : Prop :=
  pc.Serving bed ∨ ∃ flags, pc = .restore (.wakeup bed) flags

/-- What `wakeup(bed)` does next: it goes on, or it is over and what it promised is on
record. It touches no process but those asleep on `bed`. -/
theorem Step.serving (hstep : Step false allowed c s t) {bed : Nat} (hpc : (s.pc c).Serving bed) :
    (((t.pc c).Serving bed ∧ t.called c = s.called c ∧ t.released c = s.released c) ∨
      ∀ l, s.called c l ≤ t.served bed l) ∧
    ∀ p, ¬ (s.state p = .sleeping ∧ s.bed p = bed) →
      t.state p = s.state p ∧ t.oncpu p = s.oncpu p ∧ t.bed p = s.bed p ∧
        t.context p = s.context p := by
  cases hstep with
  | acquire k flags hpc' hfree =>
    rw [hpc'] at hpc
    exact ⟨.inl ⟨by simpa [State.goto, Pc.Serving] using hpc, rfl, rfl⟩,
      fun _ _ => ⟨rfl, rfl, rfl, rfl⟩⟩
  | wakeup bed' flags hpc' =>
    rw [hpc'] at hpc
    obtain rfl : bed' = bed := Call.wakeup.inj hpc
    exact ⟨.inl ⟨by simp [State.goto, Pc.Serving], rfl, rfl⟩, fun _ _ => ⟨rfl, rfl, rfl, rfl⟩⟩
  | fetch bed' flags rest hmode hpc' =>
    rw [hpc'] at hpc
    obtain rfl : bed' = bed := hpc
    refine ⟨.inl ⟨?_, rfl, rfl⟩, fun _ _ => ⟨rfl, rfl, rfl, rfl⟩⟩
    cases rest <;> simp [State.goto, fetched, Pc.Serving]
  | visit bed' flags n rest hpc' =>
    rw [hpc'] at hpc
    obtain rfl : bed' = bed := hpc
    split
    next hsleeping =>
      refine ⟨.inl ⟨by simp [State.goto, State.setState, Pc.Serving], rfl, rfl⟩, fun p hp => ?_⟩
      have hne : p ≠ .other n := by
        rintro rfl
        exact hp ⟨hsleeping.2, hsleeping.1⟩
      exact ⟨update_of_ne hne .., rfl, rfl, rfl⟩
    next =>
      exact ⟨.inl ⟨by simp [State.goto, Pc.Serving], rfl, rfl⟩, fun _ _ => ⟨rfl, rfl, rfl, rfl⟩⟩
  | release k flags hpc' =>
    rw [hpc'] at hpc
    obtain rfl : k = .wakeup bed := hpc
    refine ⟨.inr fun l => ?_, fun _ _ => ⟨rfl, rfl, rfl, rfl⟩⟩
    simp only [State.goto, State.serve, State.drop, update_self]
    exact Nat.le_max_right _ _
  | fetchSave bed' flags rest hmode hpc' => exact Bool.noConfusion hmode
  | schedule oldproc flags hpc' hassert | panic oldproc flags hpc' hassert
  | sleepUnlock bed' lock flags hpc' | procAdd n flags hpc' | procRemove n flags hpc'
  | setScheduler sch flags hpc' | procNext proc flags hpc' =>
    rw [hpc'] at hpc
    cases hpc
  | call k hpc' | pickSome oldproc flags n hpc' | pickNone oldproc flags hpc'
  | update oldproc newproc flags hpc' | switchTo proc ret hpc' | saveRegs current proc ret hpc'
  | loadRegs proc hpc' | setBed bed' lock flags hpc' | setState bed' lock flags hpc'
  | woken bed' lock flags hpc' | fetchLock bed' flags rest hpc' | restore k flags hpc'
  | relock l hpc' | userLock l hpc' | userUnlock l hpc' | change l hpc' | setIe b hpc' =>
    rw [hpc'] at hpc
    exact hpc.elim

theorem Step.served_le (hstep : Step false allowed c s t) (b l : Nat) :
    s.served b l ≤ t.served b l := by
  cases hstep with
  | release k flags hpc =>
    cases k with
    | wakeup bed =>
      by_cases hb : b = bed
      · subst hb
        simp only [State.goto, State.serve, State.drop, update_self]
        exact Nat.le_max_left _ _
      · simp [State.goto, State.serve, State.drop, hb]
    | _ => exact Nat.le_refl _
  | schedule oldproc flags hpc hassert => split <;> exact Nat.le_refl _
  | visit bed flags n rest hpc => split <;> exact Nat.le_refl _
  | sleepUnlock bed lock flags hpc => cases lock <;> exact Nat.le_refl _
  | _ => exact Nat.le_refl _

/-- The histories of the other CPUs do not change. -/
theorem Step.frame_histories (hstep : Step false allowed c s t) (hc : c' ≠ c) :
    t.called c' = s.called c' ∧ t.released c' = s.released c' := by
  cases hstep with
  | call k hpc hallowed hk hold => exact ⟨update_of_ne hc .., rfl⟩
  | release k flags hpc => cases k <;> exact ⟨rfl, update_of_ne hc ..⟩
  | schedule oldproc flags hpc hassert => split <;> exact ⟨rfl, rfl⟩
  | visit bed flags n rest hpc => split <;> exact ⟨rfl, rfl⟩
  | sleepUnlock bed lock flags hpc => cases lock <;> exact ⟨rfl, rfl⟩
  | _ => exact ⟨rfl, rfl⟩

/-- Once CPU `c` has left the critical section of a `wakeup`, what it promised at its entry
is on record. -/
theorem served_of_released {bed : Nat} (hserving : (s.pc c).Serving bed)
    (hrun : Run false allowed s t) (hover : s.released c < t.released c) (l : Nat) :
    s.called c l ≤ t.served bed l := by
  have hpromise : ((t.pc c).Serving bed ∧ t.called c = s.called c ∧ t.released c = s.released c) ∨
      ∀ l, s.called c l ≤ t.served bed l := by
    clear hover
    induction hrun with
    | refl => exact .inl ⟨hserving, rfl, rfl⟩
    | tail _ hstep ih =>
      obtain ⟨c', hstep⟩ := hstep
      rcases ih with ⟨hpc, hcalled, hreleased⟩ | hserved
      · by_cases hc : c = c'
        · subst hc
          rw [← hcalled, ← hreleased]
          exact (hstep.serving hpc).1
        · obtain ⟨hcalled', hreleased'⟩ := hstep.frame_histories hc
          rw [(hstep.frame hc).1, hcalled', hreleased']
          exact .inl ⟨hpc, hcalled, hreleased⟩
      · exact .inr fun l => Nat.le_trans (hserved l) (hstep.served_le bed l)
  rcases hpromise with ⟨-, -, hsame⟩ | hserved
  · exact absurd hsame (Nat.ne_of_gt hover)
  · exact hserved l

theorem Step.called_eq {bed : Nat} {flags : Bool} (hstep : Step false allowed c s t)
    (huser : s.pc c = .user) (hpc : t.pc c = .acquire (.wakeup bed) flags) :
    t.called c = s.version := by
  cases hstep <;> simp_all [State.goto, State.grab, State.unlock, State.change]

/-- No wakeup is lost. In every run in which processes go to sleep with locks they hold:
once a `wakeup` of a bed has left its critical section, a listed process that is asleep on
that bed, having released lock `l`, has held `l` after every change made before the
`wakeup` was entered; and a `wakeup` touches no process that is not asleep on its bed. -/
theorem no_lost_wakeup (hinit : Init s) (hrun : Run false Sleepers s t) :
    (∀ a b c bed flags, Run false Sleepers s a → a.pc c = .user → Step false Sleepers c a b →
      b.pc c = .acquire (.wakeup bed) flags → Run false Sleepers b t →
      b.released c < t.released c → ∀ n l, n ∈ t.listed → t.state (.other n) = .sleeping →
      t.bed (.other n) = bed → t.slept (.other n) = some l →
      a.version l ≤ t.seen (.other n) l) ∧
    ∀ c u bed, (t.pc c).Waking bed → Step false Sleepers c t u → ∀ p,
      ¬ (t.state p = .sleeping ∧ t.bed p = bed) →
      u.state p = t.state p ∧ u.oncpu p = t.oncpu p ∧ u.bed p = t.bed p ∧
        u.context p = t.context p := by
  obtain ⟨-, hawaited⟩ := awaited_run hinit hrun
  constructor
  · intro a b c bed flags _ huser hcall hentered hrun' hover n l hlisted hsleeping hbed hslept
    have hserving : (b.pc c).Serving bed := by
      rw [hentered]
      rfl
    calc a.version l = b.called c l := by rw [hcall.called_eq huser hentered]
      _ ≤ t.served bed l := served_of_released hserving hrun' hover l
      _ = t.served (t.bed (.other n)) l := by rw [hbed]
      _ ≤ t.seen (.other n) l := hawaited.asleep n l ⟨hlisted, hsleeping, hslept⟩
  · rintro c u bed (hserving | ⟨flags, hpc⟩) hstep p hp
    · exact (hstep.serving hserving).2 p hp
    · cases hstep <;> simp_all [State.goto]

/-- On CPU `0` a process takes lock `3` and goes to sleep on bed `7`; when it has released
the lock, CPU `1` takes it, changes the condition, releases it and calls `wakeup`. When
that is over the process does not sleep. -/
theorem no_lost_wakeup_boot :
    ∃ t, Run false Sleepers boot t ∧ t.listed = [0] ∧ t.bed (.other 0) = 7 ∧
      t.slept (.other 0) = some 3 ∧ t.state (.other 0) ≠ .sleeping := by
  -- CPU 0 switches to the process
  have h₁ : Run false Sleepers boot _ :=
    Run.step .refl 0 (.call (.schedule (.idle 0)) rfl trivial Call.noConfusion
      (fun _ h => (Call.schedule.inj h).symm))
  have h₂ := h₁.step 0 (.acquire _ _ rfl rfl)
  have h₃ := h₂.step 0 (.schedule _ _ rfl rfl)
  have h₄ := h₃.step 0 (.pickSome _ _ 0 rfl (by decide) rfl)
  have h₅ := h₄.step 0 (.update _ _ _ rfl)
  have h₆ := h₅.step 0 (.switchTo _ _ rfl)
  have h₇ := h₆.step 0 (.saveRegs _ _ _ rfl)
  have h₈ := h₇.step 0 (.loadRegs _ rfl)
  have h₉ := h₈.step 0 (.release _ _ rfl)
  have h₁₀ := h₉.step 0 (.restore _ _ rfl)
  -- the process goes to sleep, and CPU 1 gets its lock
  have h₁₁ := h₁₀.step 0 (.userLock 3 rfl rfl)
  have h₁₂ := h₁₁.step 0 (.call (.sleepWithLock 7 (some 3)) rfl
    (fun _ h => by cases h; rfl) Call.noConfusion (fun _ => Call.noConfusion))
  have h₁₃ := h₁₂.step 0 (.acquire _ _ rfl rfl)
  have h₁₄ := h₁₃.step 0 (.sleepUnlock _ _ _ rfl)
  have h₁₅ := h₁₄.step 1 (.userLock 3 rfl rfl)
  have h₁₆ := h₁₅.step 1 (.change 3 rfl rfl)
  have h₁₇ := h₁₆.step 1 (.userUnlock 3 rfl rfl)
  have h₁₈ := h₁₇.step 1 (.call (.wakeup 7) rfl trivial Call.noConfusion
    (fun _ => Call.noConfusion))
  -- CPU 1 waits for `sched_lock` until the process is asleep
  have k₁ := h₁₈.here.step 0 (.setBed _ _ _ rfl)
  have k₂ := k₁.step 0 (.setState _ _ _ rfl)
  have k₃ := k₂.step 0 (.switchTo _ _ rfl)
  have k₄ := k₃.step 0 (.saveRegs _ _ _ rfl)
  have k₅ := k₄.step 0 (.loadRegs _ rfl)
  have k₆ := k₅.step 0 (.release _ _ rfl)
  have k₇ := k₆.step 1 (.acquire _ _ rfl rfl)
  have k₈ := k₇.step 1 (.wakeup _ _ rfl)
  have k₉ := k₈.step 1 (.fetch _ _ _ rfl rfl)
  have k₁₀ := k₉.step 1 (.visit _ _ _ _ rfl)
  have k₁₁ := k₁₀.step 1 (.fetch _ _ _ rfl rfl)
  have k₁₂ := k₁₁.step 1 (.release _ _ rfl)
  have hlost := (no_lost_wakeup boot_init (h₁₈.trans k₁₂)).1 _ _ 1 7 _ h₁₇ rfl
    (.call (.wakeup 7) rfl trivial Call.noConfusion (fun _ => Call.noConfusion)) rfl k₁₂
    (by decide) 0 3 (by decide)
  refine ⟨_, h₁₈.trans k₁₂, rfl, rfl, rfl, fun hsleeping => ?_⟩
  exact absurd (hlost hsleeping rfl rfl) (by decide)

end AimKernel.Sched
