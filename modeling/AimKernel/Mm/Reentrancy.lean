import AimKernel.Mm.AllocatorInit

/-!
# AimKernel.Mm.Reentrancy

Whole runs of the coupled allocators, from `allocator_init` through any number of
calls of their clients.

`Running` is the invariant of such runs: the machine is between two calls, or in the
middle of one that is going to unwind. It is kept by every step taken from a state
that satisfies `Regular`. Without that condition a run can go wrong, and the end of
this module has a concrete one that does: a nested `kmalloc` reuses the descriptor
that the outer one has picked, the page of the inner one is lost, and the next
`pgalloc` panics when it frees the list node on that page.
-/

namespace AimKernel

open Machine

/-- Between two calls, inside one that unwinds, or stopped by a client that asked
for too large an object. -/
def Running (m : Machine) : Prop :=
  Unwinds (fun m' => Ready m' ∨ (m'.ctl = .panic tooLarge ∧ Sound m')) m

namespace Ready

variable {m : Machine}

variable {plain : List Nat} {ds : List Desc} {bs : List Blk} {w : World} {o p : Nat}

theorem fits (plain : List Nat) (K : List Frame) : Ctx.Fits ⟨[], [], plain, []⟩ K :=
  ⟨by simp, by simp⟩

theorem runs_client (w : World) (v : Nat) (c : Call) :
    Runs ⟨w, .ret v, [.client c]⟩ ⟨clientRet v c w, .idle, []⟩ := ⟨0, rfl⟩

/-- The object that `kmalloc` returns goes to the client. -/
theorem of_kmalloc (ho : o ≠ 0) (h : Coupled ⟨[o], [], plain, []⟩ ds bs w) (hcanon : Canon bs)
    (size : Nat) :
    Ready ⟨clientRet o (.kmalloc size) w, .idle, []⟩ := by
  refine ⟨rfl, rfl, plain, ds, bs, ?_, hcanon⟩
  simp only [clientRet, if_neg ho]
  exact ⟨h.active, h.slab, h.rep, h.objs, h.pages, h.descs, h.promised, h.apart⟩

/-- The page that `pgalloc` returns goes to the client. -/
theorem of_pgalloc (h : Coupled ⟨[], [p], plain, []⟩ ds bs w) (hcanon : Canon bs) :
    Ready ⟨clientRet p .pgalloc w, .idle, []⟩ := by
  have herr := (h.pages.owned_apart p (by simp)).1.ne_addrError
  refine ⟨rfl, rfl, plain, ds, bs, ?_, hcanon⟩
  simp only [clientRet, if_neg herr]
  refine ⟨h.active, h.slab, h.rep, h.objs, h.pages.perm ?_, h.descs, by simp, h.apart⟩
  simp only [List.singleton_append, List.nil_append]
  exact List.perm_middle.symm

theorem unwinds_kmalloc (h : Ready m) (size : Nat) :
    Unwinds (fun m' => Ready m' ∨ (m'.ctl = .panic tooLarge ∧ Sound m' ∧ pageSize / 2 < size))
      (m.begin (.kmalloc size)) := by
  obtain ⟨plain, ds, bs, hc, hcanon⟩ := h.coupled
  refine Leads.bind (AimKernel.unwinds_kmalloc hc hcanon (fits plain _) size) ?_
  intro m' hm'
  cases hm' with
  | null plain' hc' hcanon' =>
    refine .next (hc'.sound_ret 0 trivial) (runs_client _ _ _) (.done (Or.inl ?_))
    exact ⟨rfl, rfl, plain', _, _, hc', hcanon'⟩
  | obj plain' ho hc' hcanon' =>
    refine .next (hc'.sound_ret _ trivial) (runs_client _ _ _) (.done (Or.inl ?_))
    exact of_kmalloc ho hc' hcanon' size
  | tooLarge hbig =>
    exact .done (Or.inr ⟨rfl, hc.sound_of_not_ret fun _ => Ctl.noConfusion, hbig⟩)

theorem unwinds_kfree (h : Ready m) (ho : o ∈ m.world.objs) :
    Unwinds Ready (m.begin (.kfree (.node o))) := by
  obtain ⟨plain, ds, bs, hc, hcanon⟩ := h.coupled
  have hc1 : Coupled ⟨[o], [], plain, []⟩ ds bs
      { m.world with objs := m.world.objs.erase o } :=
    ⟨hc.active, hc.slab, hc.rep, hc.objs.perm (List.Perm.refl _) (List.perm_cons_erase ho),
      hc.pages, hc.descs, hc.promised, hc.apart⟩
  refine Leads.bind (AimKernel.unwinds_kfree (C := ⟨[], [], plain, []⟩) hc1 hcanon (fits plain _)) ?_
  rintro _ ⟨plain', ds', bs', w', rfl, hc', hcanon'⟩
  refine .next (hc'.sound_ret 0 trivial) (runs_client _ _ _) (.done ?_)
  exact ⟨rfl, rfl, plain', ds', bs', hc', hcanon'⟩

theorem unwinds_pgalloc (h : Ready m) : Unwinds Ready (m.begin .pgalloc) := by
  obtain ⟨plain, ds, bs, hc, hcanon⟩ := h.coupled
  refine Leads.bind (AimKernel.unwinds_pgalloc hc hcanon (fits plain _) none (by simp) (by simp)) ?_
  rintro _ ⟨plain', p, ds', bs', w', rfl, hc', hcanon'⟩
  exact .next (hc'.sound_ret _ trivial) (runs_client _ _ _) (.done (of_pgalloc hc' hcanon'))

theorem unwinds_pgfree (h : Ready m) (hp : p ∈ m.world.pages) :
    Unwinds Ready (m.begin (.pgfree p)) := by
  obtain ⟨plain, ds, bs, hc, hcanon⟩ := h.coupled
  have hperm : ([] ++ (plain ++ m.world.pages)).Perm
      ([p] ++ (plain ++ m.world.pages.erase p)) := by
    exact ((List.perm_cons_erase hp).append_left plain).trans List.perm_middle
  have hc1 : Coupled ⟨[], [p], plain, []⟩ ds bs
      { m.world with pages := m.world.pages.erase p } :=
    ⟨hc.active, hc.slab, hc.rep, hc.objs, hc.pages.perm hperm, hc.descs, by simp, hc.apart⟩
  refine Leads.bind
    (AimKernel.unwinds_pgfree (C := ⟨[], [], plain, []⟩) hc1 hcanon (fits plain _)) ?_
  rintro _ ⟨plain', ds', bs', w', rfl, hc', hcanon'⟩
  refine .next (hc'.sound_ret 0 trivial) (runs_client _ _ _) (.done ?_)
  exact ⟨rfl, rfl, plain', ds', bs', hc', hcanon'⟩

/-- **Every call of a client unwinds**, or is refused for its size. -/
theorem unwinds_begin (h : Ready m) {c : Call} (hc : m.Allowed c) :
    Unwinds (fun m' => Ready m' ∨ (m'.ctl = .panic tooLarge ∧ Sound m' ∧
      ∃ size, c = .kmalloc size ∧ pageSize / 2 < size)) (m.begin c) := by
  cases c with
  | kmalloc size =>
    refine (h.unwinds_kmalloc size).mono ?_ fun _ hq => hq
    rintro m' (hready | ⟨hctl, hsound, hbig⟩)
    · exact Or.inl hready
    · exact Or.inr ⟨hctl, hsound, size, rfl, hbig⟩
  | kfree obj =>
    cases obj with
    | node o => exact (h.unwinds_kfree hc).mono (fun _ => Or.inl) fun _ hq => hq
    | _ => exact absurd hc (by simp [Allowed])
  | pgalloc => exact h.unwinds_pgalloc.mono (fun _ => Or.inl) fun _ hq => hq
  | pgfree p => exact (h.unwinds_pgfree hc).mono (fun _ => Or.inl) fun _ hq => hq
  | _ => exact absurd hc (by simp [Allowed])

end Ready

/-! ### Runs -/

namespace Running

variable {m m' : Machine}

theorem not_runs_idle (h : m.ctl = .idle) : ¬ Runs m m' := by
  rintro ⟨fuel, hstep⟩
  simp [step, h] at hstep

theorem not_runs_panic {msg : String} (h : m.ctl = .panic msg) : ¬ Runs m m' := by
  rintro ⟨fuel, hstep⟩
  simp [step, h] at hstep

theorem sound (h : Running m) : Sound m := by
  refine Leads.safe h ?_
  rintro t (hready | ⟨-, hsound⟩)
  · obtain ⟨plain, ds, bs, hc, -⟩ := hready.coupled
    exact hc.sound_of_not_ret fun v hctl => Ctl.noConfusion (hready.ctl.symm.trans hctl)
  · exact hsound

/-- A regular idle state is ready for the next call. -/
theorem ready (h : Running m) (hg : Regular m) (hidle : m.ctl = .idle) : Ready m := by
  cases h with
  | done hfinal =>
    rcases hfinal with hready | ⟨hpanic, -⟩
    · exact hready
    · exact absurd (hidle.symm.trans hpanic) (by simp)
  | leave _ hng => exact absurd hg hng
  | next _ hruns _ => exact absurd hruns (not_runs_idle hidle)

/-- **One step.** -/
theorem step (h : Running m) (hg : Regular m) (hs : Step m m') : Running m' := by
  cases hs with
  | run hstep =>
    refine Leads.advance (fun h1 h2 => h1.det h2) h ?_ hg ⟨_, hstep⟩
    rintro (hready | ⟨hpanic, -⟩)
    · exact not_runs_idle hready.ctl ⟨_, hstep⟩
    · exact not_runs_panic hpanic ⟨_, hstep⟩
  | client hidle hallowed =>
    refine ((h.ready hg hidle).unwinds_begin hallowed).mono ?_ fun _ hq => hq
    rintro t (hready | ⟨hpanic, hsound, -⟩)
    · exact Or.inl hready
    · exact Or.inr ⟨hpanic, hsound⟩

end Running

/-- A run of the machine in which every step is taken from a state with `G`. -/
def Machine.Runs.Along (G : Machine → Prop) : Machine → Machine → Prop :=
  Relation.ReflTransGen fun a b => G a ∧ Step a b

/-- **The invariant of regular runs.** -/
theorem Running.run {kernEnd simple1Start : Nat} (hboot : Bootable kernEnd simple1Start)
    (pa : Palloc) (slab : Slab) {m : Machine}
    (hrun : Runs.Along Regular (allocatorInit kernEnd simple1Start pa slab) m) : Running m := by
  induction hrun with
  | refl => exact (unwinds_allocatorInit hboot pa slab).mono (fun _ => Or.inl) fun _ hq => hq
  | tail _ hstep ih => exact ih.step hstep.1 hstep.2

/-- **Re-entrancy.** In every regular run, from `allocator_init` on, every object
of a completed `kmalloc` that has not been freed is registered, and the descriptor
that a suspended `alloc` has picked is still unused when its page arrives. -/
theorem objects_stay_registered {kernEnd simple1Start : Nat}
    (hboot : Bootable kernEnd simple1Start) (pa : Palloc) (slab : Slab) {m : Machine}
    (hrun : Runs.Along Regular (allocatorInit kernEnd simple1Start pa slab) m) :
    (∀ o ∈ m.world.live, Registered m.world.slab o) ∧
    ∀ v size n stack, m.ctl = .ret v → m.stack = .allocPage size (.node n) :: stack →
      (m.world.slab.mem (.node n)).size = pgEmpty := by
  have hsound := (Running.run hboot pa slab hrun).sound
  exact ⟨hsound.registered, hsound.unused⟩

/-- The block that survives the first merge of `free` is linked when the `kfree` in
between returns. -/
def SurvivorLinked (m : Machine) : Prop :=
  ∀ v pages i stack, m.ctl = .ret v → m.stack = .pallocMergePrev pages i :: stack →
    ∃ bs, m.world.pa.Rep bs ∧ ∃ b ∈ bs, i = .node b.node

/-- The call `c` is over: it has returned, or it was a `kmalloc` of more than half a
page, which panics before it calls anything. -/
def CallOver (c : Call) (m : Machine) : Prop :=
  (m.ctl = .idle ∧ m.stack = []) ∨
    (m.ctl = .panic tooLarge ∧ ∃ size, c = .kmalloc size ∧ pageSize / 2 < size)

/-- Nothing is asked of a state between two calls. -/
theorem regular_idle {m : Machine} (hidle : m.ctl = .idle) : Regular m := by
  refine ⟨?_, ?_, ?_⟩
  · rintro ⟨hctl, -⟩
    exact absurd (hidle.symm.trans hctl) (by simp)
  · intro size hctl
    exact absurd (hidle.symm.trans hctl) (by simp)
  · intro v size stack hctl
    exact absurd (hidle.symm.trans hctl) (by simp)

/-- **Termination.** After every regular run, every call of a client is over after
finitely many steps, unless it leaves the regular states, and the survivor of a
first merge is linked on the way. -/
theorem calls_unwind {kernEnd simple1Start : Nat} (hboot : Bootable kernEnd simple1Start)
    (pa : Palloc) (slab : Slab) {m : Machine}
    (hrun : Runs.Along Regular (allocatorInit kernEnd simple1Start pa slab) m)
    (hidle : m.ctl = .idle) {c : Call} (hallowed : m.Allowed c) :
    Leads Runs Regular SurvivorLinked (CallOver c) (m.begin c) := by
  have hready := (Running.run hboot pa slab hrun).ready (regular_idle hidle) hidle
  refine (hready.unwinds_begin hallowed).mono ?_ fun _ hsound => hsound.linked
  rintro t (hready | ⟨hpanic, -, hbig⟩)
  · exact Or.inl ⟨hready.ctl, hready.stack⟩
  · exact Or.inr ⟨hpanic, hbig⟩

/-! ### Concrete runs -/

namespace Machine

instance (m : Machine) (c : Call) : Decidable (m.Allowed c) := by
  unfold Allowed
  split <;> infer_instance

/-- A test that `pgalloc`, if it comes next, does not fail. -/
def serves (fuel : Nat) (m : Machine) : Bool :=
  match m.ctl with
  | .call .pgalloc =>
    match m.world.pa.allocEnter fuel onePage with
    | none => false
    | some .reject => false
    | some _ => true
  | _ => true

theorem not_runsOut_of_serves {fuel : Nat} {m : Machine} (h : m.serves fuel = true) :
    ¬ m.RunsOut := by
  rintro ⟨hctl, k, hreject⟩
  unfold serves at h
  rw [hctl] at h
  cases hres : m.world.pa.allocEnter fuel onePage with
  | none =>
    rw [hres] at h
    exact absurd h (by simp)
  | some res =>
    have h1 := Palloc.allocEnter_mono hres (Nat.le_max_left fuel k)
    have h2 := Palloc.allocEnter_mono hreject (Nat.le_max_right fuel k)
    rw [h1] at h2
    obtain rfl := Option.some.inj h2
    rw [hres] at h
    exact absurd h (by simp)

/-- A simple test for regular states: no `alloc` is suspended when an object is asked
for, and the list of descriptors is empty when a descriptor is stored. -/
def regularTest (fuel : Nat) (m : Machine) : Bool :=
  m.serves fuel &&
    match m.ctl, m.stack with
    | .call (.kmalloc _), stack => picked stack = []
    | .ret _, .allocPage _ .tail :: _ => (m.world.slab.mem .head).next = .tail
    | _, _ => true

theorem regular_of_regularTest {fuel : Nat} {m : Machine} (h : m.regularTest fuel = true) :
    Regular m := by
  unfold regularTest at h
  rw [Bool.and_eq_true] at h
  refine ⟨not_runsOut_of_serves h.1, ?_, ?_⟩
  · intro size hctl n hn
    have h2 := h.2
    rw [hctl] at h2
    simp only [decide_eq_true_eq] at h2
    rw [h2] at hn
    exact absurd hn List.not_mem_nil
  · intro v size stack hctl hstack ds hrep _ d hd
    have h2 := h.2
    rw [hctl, hstack] at h2
    simp only [decide_eq_true_eq] at h2
    cases ds with
    | nil => exact absurd hd List.not_mem_nil
    | cons e ds =>
      have hfirst : (m.world.slab.mem .head).next = .node e.node := hrep.chain.1
      rw [h2] at hfirst
      exact absurd hfirst (by simp)

/-- Run until idle, as long as every state passes the test. -/
def runIdle (ok : Machine → Bool) (fuel : Nat) : Nat → Machine → Option Machine
  | 0, _ => none
  | n + 1, m =>
    if m.ctl = .idle then some m
    else if ok m then (m.step fuel).bind (runIdle ok fuel n)
    else none

/-- Run the calls `cs` one after the other. -/
def runCalls (ok : Machine → Bool) (fuel n : Nat) : List Call → Machine → Option Machine
  | [], m => some m
  | c :: cs, m =>
    if m.ctl = .idle ∧ m.Allowed c ∧ ok m then
      (runIdle ok fuel n (m.begin c)).bind (runCalls ok fuel n cs)
    else none

variable {ok : Machine → Bool} {G : Machine → Prop} {fuel : Nat}

variable {n : Nat} {m m' : Machine} {cs : List Call}

theorem runIdle_run (hok : ∀ m, ok m = true → G m) (h : runIdle ok fuel n m = some m')
    : Runs.Along G m m' ∧ m'.ctl = .idle := by
  induction n generalizing m with
  | zero => exact absurd h (by simp [runIdle])
  | succ n ih =>
    unfold runIdle at h
    split at h
    · rename_i hidle
      obtain rfl := Option.some.inj h
      exact ⟨.refl, hidle⟩
    · split at h
      · rename_i hm
        obtain ⟨m1, hstep, hrest⟩ := Option.bind_eq_some_iff.mp h
        obtain ⟨hrun, hidle⟩ := ih hrest
        exact ⟨.head ⟨hok m hm, .run hstep⟩ hrun, hidle⟩
      · exact absurd h (by simp)

theorem runCalls_run (hok : ∀ m, ok m = true → G m) (h : runCalls ok fuel n cs m = some m')
    : Runs.Along G m m' := by
  induction cs generalizing m with
  | nil =>
    obtain rfl := Option.some.inj h
    exact .refl
  | cons c cs ih =>
    unfold runCalls at h
    split at h
    · rename_i hc
      obtain ⟨m1, hm1, hrest⟩ := Option.bind_eq_some_iff.mp h
      exact .head ⟨hok m hc.2.2, .client hc.1 hc.2.1⟩ ((runIdle_run hok hm1).1.trans (ih hrest))
    · exact absurd h (by simp)

/-- A machine about to boot, over blank memory. -/
def blank : Machine :=
  allocatorInit 0x80100000 0x800f0000 ⟨fun _ => ⟨.null, .null, 0, 0⟩, 0⟩
    ⟨fun _ => ⟨.null, .null, 0, 0, 0, 0⟩, 0, 0⟩

theorem bootable_blank : Bootable 0x80100000 0x800f0000 :=
  ⟨by decide, by decide, by decide⟩

/-- The state after the boot and the calls `cs`, all of it regular. -/
def regularRun (cs : List Call) : Option Machine :=
  (runIdle (regularTest 20) 20 100 blank).bind (runCalls (regularTest 20) 20 100 cs)

theorem regularRun_run (h : regularRun cs = some m) :
    Runs.Along Regular blank m := by
  obtain ⟨m1, h1, h2⟩ := Option.bind_eq_some_iff.mp h
  exact (runIdle_run (fun _ => regular_of_regularTest) h1).1.trans
    (runCalls_run (fun _ => regular_of_regularTest) h2)

theorem exists_of_any {α : Type} {a : Option α} {p : α → Bool} (h : a.any p = true) :
    ∃ x, a = some x ∧ p x = true := by
  cases a with
  | none => exact absurd h (by simp)
  | some x => exact ⟨x, rfl, h⟩

end Machine

/-- A regular run with an object that stays live. -/
theorem objects_stay_registered_pgfree :
    ∃ m, Runs.Along Regular blank m ∧ 0x80101020 ∈ m.world.live ∧
      Registered m.world.slab 0x80101020 := by
  have hlive : ((regularRun [.kmalloc 32, .pgalloc, .pgfree 0x102000]).any fun m =>
      decide (0x80101020 ∈ m.world.live)) = true := by
    decide +kernel
  obtain ⟨m, hm, hlive⟩ := exists_of_any hlive
  rw [decide_eq_true_eq] at hlive
  exact ⟨m, regularRun_run hm, hlive,
    (objects_stay_registered bootable_blank _ _ (regularRun_run hm)).1 _ hlive⟩

/-- The next call of that run unwinds. -/
theorem calls_unwind_kfree :
    ∃ m, Runs.Along Regular blank m ∧ m.ctl = .idle ∧ m.Allowed (.kfree (.node 0x80101020)) ∧
      Leads Runs Regular SurvivorLinked (CallOver (.kfree (.node 0x80101020)))
        (m.begin (.kfree (.node 0x80101020))) := by
  have hidle : ((regularRun [.kmalloc 32, .pgalloc, .pgfree 0x102000]).any fun m =>
      decide (m.ctl = .idle ∧ m.Allowed (.kfree (.node 0x80101020)))) = true := by
    decide +kernel
  obtain ⟨m, hm, hidle⟩ := exists_of_any hidle
  rw [decide_eq_true_eq] at hidle
  exact ⟨m, regularRun_run hm, hidle.1, hidle.2,
    calls_unwind bootable_blank _ _ (regularRun_run hm) hidle.1 hidle.2⟩

namespace Machine

/-- The calls of the run that goes wrong. A page of list nodes is filled up, two more
descriptors are used and given back, and the free list is left with a block of one
page in front whose node is alone on its page. `kmalloc(128)` then picks the first
of the two descriptors and takes that page; freeing the node empties its page, and
the `kmalloc` of a node for that page picks the same descriptor again. -/
def clash : List Call :=
  List.replicate 128 (.kmalloc 32) ++
    [.kmalloc 64, .pgalloc, .pgalloc, .pgfree 0x104000, .kfree (.node 0x80102000),
      .kfree (.node 0x80103000), .pgalloc, .kmalloc 128]

/-- The state after these calls. -/
def clashed : Option Machine :=
  (runIdle (serves 200) 200 1000 blank).bind (runCalls (serves 200) 200 1000 clash)

theorem clashed_run {m : Machine} (h : clashed = some m) :
    Runs.Along (fun m => ¬ m.RunsOut) blank m := by
  obtain ⟨m1, h1, h2⟩ := Option.bind_eq_some_iff.mp h
  exact (runIdle_run (fun _ => not_runsOut_of_serves) h1).1.trans
    (runCalls_run (fun _ => not_runsOut_of_serves) h2)

/-- Does `free` fail to find the object? -/
def lost (o : Nat) (m : Machine) : Bool :=
  match m.world.slab.freeEnter 200 o with
  | some (.panic _) => true
  | _ => false

theorem not_registered_of_lost {o : Nat} {m : Machine} (h : lost o m = true) :
    ¬ Registered m.world.slab o := by
  intro hreg
  unfold lost at h
  split at h
  · rename_i msg hfree
    exact hreg.freed _ _ hfree
  · exact absurd h (by simp)

end Machine

/-- In the run above the live object at `0x80106000` is not registered. -/
theorem clashed_loses_object :
    ∃ m, Runs.Along (fun m => ¬ m.RunsOut) blank m ∧
      ∃ o ∈ m.world.live, ¬ Registered m.world.slab o := by
  have hlost : (clashed.any fun m => decide (0x80106000 ∈ m.world.live) && lost 0x80106000 m) =
      true := by
    decide +kernel
  obtain ⟨m, hm, hlost⟩ := exists_of_any hlost
  rw [Bool.and_eq_true, decide_eq_true_eq] at hlost
  exact ⟨m, clashed_run hm, 0x80106000, hlost.1, not_registered_of_lost hlost.2⟩

namespace Machine

/-- Does the run end in a panic, without free pages running out? -/
def panics (fuel : Nat) : Nat → Machine → Bool
  | 0, _ => false
  | n + 1, m =>
    match m.ctl with
    | .panic _ => true
    | .idle => false
    | _ => m.serves fuel && (m.step fuel).any (panics fuel n)

theorem not_leads_of_panics {fuel n : Nat} {m : Machine} {Q : Machine → Prop}
    (h : panics fuel n m = true) :
    ¬ Leads Runs (fun m => ¬ m.RunsOut) Q (CallOver .pgalloc) m := by
  induction n generalizing m with
  | zero => exact absurd h (by simp [panics])
  | succ n ih =>
    have hrunning : ∀ {m}, (∃ m', m.step fuel = some m' ∧ panics fuel n m' = true) →
        m.serves fuel = true → m.ctl ≠ .idle → (∀ msg, m.ctl ≠ .panic msg) →
        ¬ Leads Runs (fun m => ¬ m.RunsOut) Q (CallOver .pgalloc) m := by
      rintro m ⟨m', hstep, hpanics⟩ hserves hidle hpanic hleads
      have hover : ¬ CallOver .pgalloc m := by
        rintro (⟨hctl, -⟩ | ⟨hctl, -⟩)
        · exact hidle hctl
        · exact hpanic _ hctl
      exact ih hpanics (hleads.advance (fun h1 h2 => h1.det h2) hover
        (not_runsOut_of_serves hserves) ⟨_, hstep⟩)
    unfold panics at h
    cases hctl : m.ctl with
    | idle =>
      rw [hctl] at h
      exact absurd h (by simp)
    | panic msg =>
      intro hleads
      cases hleads with
      | done hover =>
        rcases hover with ⟨hidle, -⟩ | ⟨-, size, hc, -⟩
        · exact absurd (hctl.symm.trans hidle) (by simp)
        · exact absurd hc (by simp)
      | leave _ hng =>
        refine hng ?_
        rintro ⟨hcall, -⟩
        exact absurd (hctl.symm.trans hcall) (by simp)
      | next _ hruns _ => exact Running.not_runs_panic hctl hruns
    | call | ret =>
      rw [hctl, Bool.and_eq_true] at h
      exact hrunning (exists_of_any h.2) h.1 (by simp [hctl]) (by simp [hctl])

end Machine

/-- After the run above `pgalloc` does not return: it takes the page of the block
whose node is lost, and `kfree` of the node panics. -/
theorem clashed_pgalloc_panics :
    ∃ m, Runs.Along (fun m => ¬ m.RunsOut) blank m ∧ m.ctl = .idle ∧ m.Allowed .pgalloc ∧
      ¬ Leads Runs (fun m => ¬ m.RunsOut) SurvivorLinked (CallOver .pgalloc)
        (m.begin .pgalloc) := by
  have hpanics : (clashed.any fun m => decide (m.ctl = .idle) &&
      panics 200 1000 (m.begin .pgalloc)) = true := by
    decide +kernel
  obtain ⟨m, hm, hpanics⟩ := exists_of_any hpanics
  rw [Bool.and_eq_true, decide_eq_true_eq] at hpanics
  exact ⟨m, clashed_run hm, hpanics.1, trivial, not_leads_of_panics hpanics.2⟩

end AimKernel
