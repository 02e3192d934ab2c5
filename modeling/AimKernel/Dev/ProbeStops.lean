import AimKernel.Dev.ProbeSound
import Mathlib.Algebra.Order.BigOperators.Group.Finset

/-!
# AimKernel.Dev.ProbeStops

`probe_devices` ends, whatever the drivers answer.

`AimKernel.Dev.Probe` has drivers that accept an entry always or never. Here the answer of
`new` may change from call to call (it may run out of memory, for instance): a driver is a
function of the number of calls made so far. What is picked up is recorded in `picked`.
For drivers that do not change their mind this is the model of `AimKernel.Dev.Probe`
(`pass_board`, `run_board`).

A name is given to a device by creating it, or by renaming another one, which happens only
while no device carries the name; and an entry is put on the list of undriven entries only
while no device carries its name. So the number of devices of one name plus the number of
undriven entries of that name stays bounded (`Census`), with it the number of devices, and
each pass but the last one creates a device.
-/

namespace AimKernel

/-- `new` of a driver: at the `n`-th call of such a routine, `none` for an entry it does
not take, and otherwise the number of the device it registers. -/
abbrev NewRoutine : Type := Nat → DevtreeEntry → Option Nat

/-- The device tree, the drivers and the heap. -/
structure Board where
  devtree : List DevtreeEntry
  drivers : List NewRoutine
  heap : DeviceHeap

/-- The state of the discovery, the number of calls made, and the entries picked up. -/
structure Probing where
  probe : Probe
  calls : Nat
  picked : List DevtreeEntry

/-- The loop over the drivers, from the `n`-th call on: the answer, and the number of calls
made then. -/
def offer (entry : DevtreeEntry) : List NewRoutine → Nat → Option Nat × Nat
  | [], n => (none, n)
  | new :: drivers, n =>
    match new n entry with
    | some devno => (some devno, n + 1)
    | none => offer entry drivers (n + 1)

/-- What `new` does when it takes the entry. -/
def Board.create (b : Board) (devno : Nat) (entry : DevtreeEntry) (s : Probe) : Probe :=
  s.driverNew ⟨b.devtree, [], b.heap⟩ ⟨fun _ => true, fun _ => devno⟩ entry

namespace Probing

/-- The loop that offers the undriven entries to the drivers. -/
def pickUp (b : Board) : List DevtreeEntry → Probing → Bool × List DevtreeEntry × Probing
  | [], s => (false, [], s)
  | entry :: rest, s =>
    match offer entry b.drivers s.calls with
    | (some devno, calls) =>
      let (_, kept, s) :=
        pickUp b rest ⟨b.create devno entry s.probe, calls, s.picked ++ [entry]⟩
      (true, kept, s)
    | (none, calls) =>
      let (found, kept, s) := pickUp b rest { s with calls := calls }
      (found, entry :: kept, s)

/-- `__probe_devices`. -/
def pass (b : Board) (s : Probing) : Except ProbeFault (Bool × Probing) := do
  let probe ← b.devtree.foldlM Probe.scanEntry s.probe
  let (found, kept, s) := pickUp b probe.undriven { s with probe := probe }
  return (found, { s with probe := { s.probe with undriven := kept } })

/-- `probe_devices`, for at most `fuel` passes. -/
def run (b : Board) : Nat → Probing → Option (Except ProbeFault Probing)
  | 0, _ => none
  | fuel + 1, s =>
    match s.pass b with
    | .error e => some (.error e)
    | .ok (true, s) => run b fuel s
    | .ok (false, s) => some (.ok s)

end Probing

namespace Probing

variable {b : Board} {s : Probing} {u : DevtreeEntry} {calls : Nat}

/-- An entry that no driver takes stays on the list. -/
theorem pickUp_refused (us : List DevtreeEntry) (h : offer u b.drivers s.calls = (none, calls)) :
    pickUp b (u :: us) s =
      ((pickUp b us { s with calls := calls }).1, u :: (pickUp b us { s with calls := calls }).2.1,
        (pickUp b us { s with calls := calls }).2.2) := by
  rw [pickUp, h]

theorem pickUp_taken {devno : Nat} (us : List DevtreeEntry)
    (h : offer u b.drivers s.calls = (some devno, calls)) :
    pickUp b (u :: us) s =
      (true, (pickUp b us ⟨b.create devno u s.probe, calls, s.picked ++ [u]⟩).2) := by
  rw [pickUp, h]

end Probing

/-! ### Drivers that do not change their mind -/

/-- The drivers of a platform. -/
def Platform.board (pf : Platform) : Board :=
  ⟨pf.devtree, pf.drivers.map fun drv _ e => if drv.accepts e then some (drv.devno e) else none,
    pf.heap⟩

namespace Probing

variable {pf : Platform}

theorem offer_board (entry : DevtreeEntry) (drivers : List Driver) (n : Nat) :
    (offer entry (drivers.map fun drv _ e => if drv.accepts e then some (drv.devno e) else none)
      n).1 = (drivers.find? fun drv => drv.accepts entry).map fun drv => drv.devno entry := by
  induction drivers generalizing n with
  | nil => rfl
  | cons drv drivers ih =>
    rw [List.map_cons, offer, List.find?_cons]
    cases drv.accepts entry with
    | true => rfl
    | false => exact ih (n + 1)

/-- The part of the result that `AimKernel.Dev.Probe` knows. -/
def forget (r : Bool × List DevtreeEntry × Probing) : Bool × List DevtreeEntry × Probe :=
  (r.1, r.2.1, r.2.2.probe)

theorem pickUp_board (us : List DevtreeEntry) (s : Probing) :
    forget (pickUp pf.board us s) = Probe.pickUp pf us s.probe := by
  induction us generalizing s with
  | nil => rfl
  | cons u us ih =>
    have hanswer := offer_board u pf.drivers s.calls
    rw [pickUp, Probe.pickUp]
    cases hoffer : offer u pf.board.drivers s.calls with
    | mk answer calls =>
      have hsame : (pf.drivers.find? fun drv => drv.accepts u).map (fun drv => drv.devno u) =
          answer := by
        rw [← hanswer]
        exact congrArg Prod.fst hoffer
      cases hdrv : pf.drivers.find? fun drv => drv.accepts u with
      | none =>
        rw [hdrv] at hsame
        subst hsame
        rw [← ih { s with calls := calls }]
        rfl
      | some drv =>
        rw [hdrv] at hsame
        subst hsame
        dsimp only [Option.map_some]
        have hrest := ih ⟨pf.board.create (drv.devno u) u s.probe, calls, s.picked ++ [u]⟩
        rw [show s.probe.driverNew pf drv u = pf.board.create (drv.devno u) u s.probe from rfl,
          ← hrest]
        rfl

/-- One pass of the model with fixed drivers. -/
theorem pass_board (s : Probing) :
    (s.pass pf.board).map (fun r => (r.1, r.2.probe)) = s.probe.probePass pf := by
  unfold pass Probe.probePass
  show ((pf.devtree.foldlM Probe.scanEntry s.probe) >>= _).map _ = _
  cases pf.devtree.foldlM Probe.scanEntry s.probe with
  | error e => rfl
  | ok probe =>
    have hpick : forget (pickUp pf.board probe.undriven { s with probe := probe }) =
        Probe.pickUp pf probe.undriven probe := pickUp_board _ _
    exact congrArg (fun r : Bool × List DevtreeEntry × Probe =>
      (Except.ok (r.1, { r.2.2 with undriven := r.2.1 }) : Except ProbeFault (Bool × Probe))) hpick

theorem run_board (fuel : Nat) (s : Probing) :
    (s.run pf.board fuel).map (Except.map Probing.probe) = s.probe.probeDevices pf fuel := by
  induction fuel generalizing s with
  | zero => rfl
  | succ fuel ih =>
    have hpass : (s.pass pf.board).map (fun r => (r.1, r.2.probe)) = s.probe.probePass pf :=
      pass_board s
    rw [run, Probe.probeDevices, ← hpass]
    cases s.pass pf.board with
    | error e => rfl
    | ok r =>
      obtain ⟨found, t⟩ := r
      cases found with
      | true => exact ih t
      | false => rfl

end Probing

/-! ### What a scan can do -/

namespace Probe

variable {s s' : Probe} {e : DevtreeEntry}

/-- The device `d` under the name of the entry. -/
def rename (s : Probe) (d : Nat) (e : DevtreeEntry) : Probe :=
  { s with devs := Function.update s.devs d { s.devs d with name := e.name } }

/-- The body of the scan does nothing, renames the first device that matches the entry, or
puts the entry on the list of undriven entries; the latter two only while no device carries
the entry's name and the bus of the entry is known. -/
theorem scanEntry_cases (hnull : 0 ∉ s.listed) (h : s.scanEntry e = .ok s') :
    s' = s ∨
    (¬ s.Named e.name ∧ s.devFromName e.parent ≠ 0 ∧ s.checkDupDevice e ≠ 0 ∧
      s' = s.rename (s.checkDupDevice e) e) ∨
    (¬ s.Named e.name ∧ s.devFromName e.parent ≠ 0 ∧ s.checkDupDevice e = 0 ∧ e ∉ s.undriven ∧
      s' = { s with undriven := s.undriven ++ [e] }) := by
  unfold scanEntry at h
  by_cases hname : s.devFromName e.name ≠ 0
  · rw [if_pos hname] at h
    split at h
    case isTrue => exact .inl (Except.ok.inj h).symm
    case isFalse => cases h
  have habsent : ¬ s.Named e.name := (devFromName_eq_zero hnull).mp (not_not.mp hname)
  rw [if_neg hname] at h
  by_cases hbus : s.devFromName e.parent = 0
  · rw [if_pos hbus] at h
    exact .inl (Except.ok.inj h).symm
  rw [if_neg hbus] at h
  by_cases hdup : s.checkDupDevice e ≠ 0 ∧ e.parent.strcmp memoryName ≠ 0
  · rw [if_pos hdup] at h
    split at h
    case isTrue => cases h
    case isFalse =>
      refine .inr (.inl ⟨habsent, hbus, hdup.1, ?_⟩)
      rw [← Except.ok.inj h, rename, CString.strlcpy_of_lt e.fits]
  · rw [if_neg hdup] at h
    have hs' : s' = s.discoverDevice e := (Except.ok.inj h).symm
    unfold discoverDevice at hs'
    by_cases hdup' : s.checkDupDevice e ≠ 0
    · rw [if_pos hdup'] at hs'
      exact .inl hs'
    rw [if_neg hdup'] at hs'
    by_cases hlisted : (s.undriven.any fun u => entryMatch u e) = true
    · rw [if_pos hlisted] at hs'
      exact .inl hs'
    rw [if_neg hlisted] at hs'
    refine .inr (.inr ⟨habsent, hbus, not_not.mp hdup', fun hu => hlisted ?_, hs'⟩)
    exact List.any_eq_true.mpr ⟨e, hu, by simp [entryMatch]⟩

theorem rename_devs (s : Probe) (d d' : Nat) (e : DevtreeEntry) :
    (s.rename d e).devs d' =
      if d' = d then { s.devs d with name := e.name } else s.devs d' :=
  Function.update_apply ..

theorem mem_of_checkDupDevice (h : s.checkDupDevice e ≠ 0) : s.checkDupDevice e ∈ s.listed := by
  unfold checkDupDevice at h ⊢
  cases hfind : s.listed.find? fun d => s.devMatch d e with
  | none =>
    rw [hfind] at h
    exact absurd rfl h
  | some d => exact List.mem_of_find?_eq_some hfind

end Probe

theorem Board.create_spec (b : Board) (devno : Nat) (e : DevtreeEntry) (s : Probe) :
    ∃ dev, NewDevice e s (b.create devno e s) dev :=
  ⟨_, Probe.driverNew_new _ _ e s⟩

/-! ### Counting names -/

namespace Probe

variable {s : Probe} {name : CString}

/-- The number of devices of a name. -/
def countNamed (s : Probe) (name : CString) : Nat :=
  s.listed.countP fun d => (s.devs d).name = name

theorem countNamed_eq_zero (h : ¬ s.Named name) : s.countNamed name = 0 := by
  refine List.countP_eq_zero.mpr fun d hd hname => h ⟨d, hd, ?_⟩
  exact of_decide_eq_true hname

/-- Renaming gives the name to one device, and no other name to any. -/
theorem countNamed_rename (hnodup : s.listed.Nodup) (d : Nat) {e : DevtreeEntry}
    (habsent : ¬ s.Named e.name) (name : CString) :
    (s.rename d e).countNamed name ≤ if name = e.name then 1 else s.countNamed name := by
  split
  case isTrue heq =>
    subst heq
    have hle : (s.rename d e).countNamed e.name ≤ s.listed.count d := by
      refine List.countP_mono_left fun d' hd' hname => ?_
      have hname : ((s.rename d e).devs d').name = e.name := of_decide_eq_true hname
      rw [rename_devs] at hname
      split at hname
      case isTrue hd => exact beq_iff_eq.mpr hd
      case isFalse hd => exact absurd ⟨d', hd', hname⟩ habsent
    exact Nat.le_trans hle (List.nodup_iff_count_le_one.mp hnodup d)
  case isFalse hne =>
    refine List.countP_mono_left fun d' _ hname => ?_
    have hname : ((s.rename d e).devs d').name = name := of_decide_eq_true hname
    rw [rename_devs] at hname
    split at hname
    case isTrue hd => exact absurd hname.symm hne
    case isFalse hd => exact decide_eq_true hname

end Probe

theorem NewDevice.countNamed {e : DevtreeEntry} {s t : Probe} {dev : Nat} (h : NewDevice e s t dev)
    (name : CString) :
    t.countNamed name = s.countNamed name + if e.name = name then 1 else 0 := by
  have hold : s.listed.countP (fun d => decide ((t.devs d).name = name)) = s.countNamed name := by
    refine List.countP_congr fun d hd => ?_
    rw [h.others d hd]
  rw [Probe.countNamed, h.perm.countP_eq, List.countP_cons, hold, h.name]
  simp only [decide_eq_true_eq]

/-- There are boundedly many devices and undriven entries of each name. -/
structure Census (b : Board) (names : List CString) (bound : Nat) (s : Probe)
    (us : List DevtreeEntry) : Prop where
  nodup : s.listed.Nodup
  nonnull : 0 ∉ s.listed
  named : ∀ d ∈ s.listed, (s.devs d).name ∈ names
  undriven : us.Nodup
  entries : ∀ u ∈ us, u ∈ b.devtree
  count : ∀ name, s.countNamed name + us.countP (fun u => u.name = name) ≤ bound

namespace Census

variable {b : Board} {names : List CString} {bound : Nat} {s t : Probe} {us : List DevtreeEntry}
  {e : DevtreeEntry}

/-- There are no more undriven entries than entries. -/
theorem length_le (hnodup : us.Nodup) (hmem : ∀ u ∈ us, u ∈ b.devtree) :
    us.length ≤ b.devtree.length :=
  (hnodup.subperm hmem).length_le

theorem listed_length_le (h : Census b names bound s us) :
    s.listed.length ≤ bound * names.length := by
  have hmaps : ∀ d ∈ s.listed.toFinset, (s.devs d).name ∈ names.toFinset := by
    intro d hd
    exact List.mem_toFinset.mpr (h.named d (List.mem_toFinset.mp hd))
  have hfiber : ∀ name ∈ names.toFinset,
      (s.listed.toFinset.filter fun d => (s.devs d).name = name).card ≤ bound := by
    intro name _
    have hcount := h.count name
    have hset : (s.listed.toFinset.filter fun d => (s.devs d).name = name) =
        (s.listed.filter fun d => (s.devs d).name = name).toFinset := by
      ext d
      simp
    have hcard : (s.listed.toFinset.filter fun d => (s.devs d).name = name).card ≤
        s.countNamed name := by
      rw [Probe.countNamed, List.countP_eq_length_filter, hset]
      exact List.toFinset_card_le _
    omega
  have hcard := Finset.card_le_mul_card_image_of_maps_to hmaps bound hfiber
  rw [List.toFinset_card_of_nodup h.nodup] at hcard
  exact Nat.le_trans hcard (Nat.mul_le_mul_left bound (List.toFinset_card_le names))

theorem rename (hnames : ∀ e ∈ b.devtree, e.name ∈ names) (hbound : b.devtree.length + 1 ≤ bound)
    (h : Census b names bound s us) (he : e ∈ b.devtree) (habsent : ¬ s.Named e.name) (d : Nat) :
    Census b names bound (s.rename d e) us := by
  refine ⟨h.nodup, h.nonnull, fun d' hd' => ?_, h.undriven, h.entries, fun name => ?_⟩
  · rw [Probe.rename_devs]
    split
    case isTrue => exact hnames e he
    case isFalse => exact h.named d' hd'
  · have hrename := Probe.countNamed_rename h.nodup d habsent name
    have hcount := h.count name
    have hus : us.countP (fun u => u.name = name) ≤ us.length := List.countP_le_length
    have hlength := length_le h.undriven h.entries
    split at hrename <;> omega

theorem discover (hbound : b.devtree.length + 1 ≤ bound) (h : Census b names bound s us)
    (he : e ∈ b.devtree) (habsent : ¬ s.Named e.name) (hnew : e ∉ us) :
    Census b names bound s (us ++ [e]) := by
  have hnodup : (us ++ [e]).Nodup := List.nodup_append'.mpr
    ⟨h.undriven, List.nodup_singleton e, List.disjoint_singleton.mpr hnew⟩
  have hmem : ∀ u ∈ us ++ [e], u ∈ b.devtree := by
    intro u hu
    rcases List.mem_append.mp hu with hu | hu
    · exact h.entries u hu
    · exact List.mem_singleton.mp hu ▸ he
  refine ⟨h.nodup, h.nonnull, h.named, hnodup, hmem, fun name => ?_⟩
  by_cases heq : e.name = name
  · have hzero := Probe.countNamed_eq_zero (heq ▸ habsent)
    have hus : (us ++ [e]).countP (fun u => u.name = name) ≤ (us ++ [e]).length :=
      List.countP_le_length
    have hlength := length_le hnodup hmem
    omega
  · have hcount := h.count name
    rw [List.countP_append, List.countP_singleton, if_neg (by simpa using heq)]
    exact hcount

/-- A device is created for an entry in the middle of the list. -/
theorem create (hnames : ∀ e ∈ b.devtree, e.name ∈ names) {held rest : List DevtreeEntry}
    {dev : Nat} (h : Census b names bound s (held ++ e :: rest)) (hcreated : NewDevice e s t dev) :
    Census b names bound t (held ++ rest) := by
  have hsub : (held ++ rest).Sublist (held ++ e :: rest) :=
    (List.sublist_cons_self e rest).append_left held
  refine ⟨hcreated.nodup h.nodup, hcreated.zero_notMem h.nonnull, fun d hd => ?_,
    h.undriven.sublist hsub, fun u hu => h.entries u (hsub.subset hu), fun name => ?_⟩
  · rcases hcreated.mem_listed.mp hd with rfl | hd
    · rw [hcreated.name]
      exact hnames e (h.entries e (by simp))
    · rw [hcreated.others d hd]
      exact h.named d hd
  · have hcount := h.count name
    rw [List.countP_append, List.countP_cons] at hcount
    rw [hcreated.countNamed, List.countP_append]
    simp only [decide_eq_true_eq] at hcount
    omega

end Census

/-! ### The passes end -/

namespace Census

variable {b : Board} {names : List CString} {bound : Nat}
  (hnames : ∀ e ∈ b.devtree, e.name ∈ names) (hbound : b.devtree.length + 1 ≤ bound)

include hnames hbound

theorem scanEntry {s s' : Probe} {e : DevtreeEntry} (h : Census b names bound s s.undriven)
    (he : e ∈ b.devtree) (hscan : s.scanEntry e = .ok s') :
    Census b names bound s' s'.undriven ∧ s'.listed = s.listed := by
  rcases Probe.scanEntry_cases h.nonnull hscan with
    rfl | ⟨habsent, _, _, rfl⟩ | ⟨habsent, _, _, hnew, rfl⟩
  · exact ⟨h, rfl⟩
  · exact ⟨h.rename hnames hbound he habsent _, rfl⟩
  · have hdiscover := h.discover hbound he habsent hnew
    exact ⟨⟨hdiscover.nodup, hdiscover.nonnull, hdiscover.named, hdiscover.undriven,
      hdiscover.entries, hdiscover.count⟩, rfl⟩

theorem scan {s s' : Probe} {es : List DevtreeEntry} (h : Census b names bound s s.undriven)
    (hes : ∀ e ∈ es, e ∈ b.devtree) (hscan : es.foldlM Probe.scanEntry s = .ok s') :
    Census b names bound s' s'.undriven ∧ s'.listed = s.listed := by
  induction es generalizing s with
  | nil =>
    obtain rfl : s = s' := Except.ok.inj hscan
    exact ⟨h, rfl⟩
  | cons e es ih =>
    rw [List.foldlM_cons] at hscan
    cases hstep : s.scanEntry e with
    | error err =>
      rw [hstep] at hscan
      cases hscan
    | ok s1 =>
      rw [hstep] at hscan
      obtain ⟨hcensus, hlisted⟩ := h.scanEntry hnames hbound (hes e List.mem_cons_self) hstep
      obtain ⟨hcensus', hlisted'⟩ := ih hcensus
        (fun e' he' => hes e' (List.mem_cons_of_mem e he')) hscan
      exact ⟨hcensus', hlisted'.trans hlisted⟩

omit hbound in
/-- The drivers: `held` are the undriven entries they were offered before. -/
theorem pickUp {s : Probing} {held us : List DevtreeEntry}
    (h : Census b names bound s.probe (held ++ us)) :
    Census b names bound (s.pickUp b us).2.2.probe (held ++ (s.pickUp b us).2.1) ∧
      s.probe.listed.length + (s.pickUp b us).1.toNat ≤ (s.pickUp b us).2.2.probe.listed.length := by
  induction us generalizing s held with
  | nil => exact ⟨h, Nat.le_refl _⟩
  | cons u us ih =>
    cases hoffer : offer u b.drivers s.calls with
    | mk answer calls =>
      cases answer with
      | none =>
        rw [Probing.pickUp_refused us hoffer, List.append_cons]
        rw [List.append_cons] at h
        exact ih (s := { s with calls := calls }) h
      | some devno =>
        obtain ⟨dev, hcreated⟩ := b.create_spec devno u s.probe
        have hlength := hcreated.perm.length_eq
        rw [List.length_cons] at hlength
        rw [Probing.pickUp_taken us hoffer]
        obtain ⟨hcensus, hle⟩ :=
          ih (s := ⟨b.create devno u s.probe, calls, s.picked ++ [u]⟩) (h.create hnames hcreated)
        refine ⟨hcensus, ?_⟩
        dsimp only at hle ⊢
        rw [Bool.toNat_true]
        omega

/-- A pass that creates a device makes the list longer. -/
theorem pass {s t : Probing} {found : Bool} (h : Census b names bound s.probe s.probe.undriven)
    (hpass : s.pass b = .ok (found, t)) :
    Census b names bound t.probe t.probe.undriven ∧
      s.probe.listed.length + found.toNat ≤ t.probe.listed.length := by
  unfold Probing.pass at hpass
  cases hscan : b.devtree.foldlM Probe.scanEntry s.probe with
  | error e =>
    rw [hscan] at hpass
    cases hpass
  | ok probe =>
    rw [hscan] at hpass
    obtain ⟨hcensus, hlisted⟩ := h.scan hnames hbound (fun _ he => he) hscan
    have hnone : Census b names bound probe ([] ++ probe.undriven) := hcensus
    obtain ⟨hcensus', hle⟩ := pickUp hnames (s := { s with probe := probe }) hnone
    cases hpass
    rw [hlisted] at hle
    exact ⟨⟨hcensus'.nodup, hcensus'.nonnull, hcensus'.named, hcensus'.undriven,
      hcensus'.entries, hcensus'.count⟩, hle⟩

/-- The passes end as soon as there cannot be more devices. -/
theorem run {s : Probing} {fuel : Nat} (h : Census b names bound s.probe s.probe.undriven)
    (hfuel : bound * names.length < s.probe.listed.length + fuel) :
    ∃ r, s.run b fuel = some r := by
  induction fuel generalizing s with
  | zero =>
    have hle := h.listed_length_le
    omega
  | succ fuel ih =>
    rw [Probing.run]
    cases hpass : s.pass b with
    | error e => exact ⟨_, rfl⟩
    | ok r =>
      obtain ⟨found, t⟩ := r
      cases found with
      | false => exact ⟨_, rfl⟩
      | true =>
        obtain ⟨hcensus, hle⟩ := h.pass hnames hbound hpass
        rw [Bool.toNat_true] at hle
        exact ih hcensus (by omega)

end Census

/-- The root buses are registered, with names of their own, and nothing else was done. -/
structure Probing.Start (s : Probing) : Prop where
  nodup : s.probe.listed.Nodup
  nonnull : 0 ∉ s.probe.listed
  unique : s.probe.NamesUnique
  roots : ∀ d ∈ s.probe.listed, (s.probe.devs d).bus = 0
  undriven : s.probe.undriven = []
  picked : s.picked = []

/-- Probing ends, whatever the tree and the drivers are. -/
theorem Probing.Start.stops {s : Probing} (h : s.Start) (b : Board) : ∃ fuel r, s.run b fuel = some r := by
  have hnames : ∀ e ∈ b.devtree, e.name ∈ s.probe.listed.map (fun d => (s.probe.devs d).name) ++
      b.devtree.map DevtreeEntry.name :=
    fun e he => List.mem_append_right _ (List.mem_map_of_mem he)
  have hcensus : Census b (s.probe.listed.map (fun d => (s.probe.devs d).name) ++
      b.devtree.map DevtreeEntry.name) (s.probe.listed.length + b.devtree.length + 1)
      s.probe s.probe.undriven := by
    rw [h.undriven]
    refine ⟨h.nodup, h.nonnull, fun d hd => ?_, .nil, fun u hu => absurd hu List.not_mem_nil,
      fun name => ?_⟩
    · exact List.mem_append_left _ (List.mem_map_of_mem hd)
    · have hle : s.probe.countNamed name ≤ s.probe.listed.length := List.countP_le_length
      rw [List.countP_nil]
      omega
  exact ⟨_, hcensus.run hnames (by omega) (Nat.lt_succ_self _ |>.trans_le (Nat.le_add_left _ _))⟩

end AimKernel
