import AimKernel.Dev.Probe
import Mathlib.Logic.ExistsUnique
import Mathlib.Data.List.Nodup
import Mathlib.Data.List.Pairwise
import Mathlib.Tactic.Tauto

/-!
# AimKernel.Dev.ProbeSound

What `probe_devices` creates.

`__dev_match` tells two devices on one bus apart only by their number of register
spaces. After a pass has created a device, an entry next to it that no driver accepts and
that has as many register spaces is taken for the same device, which is renamed. Where
this cannot happen (`Distinguished`), devices keep the names they were registered under,
and every accepted entry with a registered parent chain gets its device.

The main invariant (`Inv`) holds throughout. A pass moreover ends with all accepted
entries below any bus that was known when it started (`pass_spec`), so a bus that has one
device has all of them (`Settled`), which is what excludes the renaming.
-/

namespace AimKernel

namespace Probe

variable {pf : Platform} {s₀ s s' : Probe} {name : CString} {d : Nat} {e : DevtreeEntry}

/-- Some registered device carries the name. -/
def Named (s : Probe) (name : CString) : Prop := ∃ d ∈ s.listed, (s.devs d).name = name

/-- No two registered devices carry one name. -/
def NamesUnique (s : Probe) : Prop :=
  ∀ d ∈ s.listed, ∀ d' ∈ s.listed, (s.devs d).name = (s.devs d').name → d = d'

/-- What is registered before the first pass: root buses with names of their own. The
entries of the tree have different names and different register spaces. -/
structure Setup (pf : Platform) (s₀ : Probe) : Prop where
  names : (pf.devtree.map DevtreeEntry.name).Nodup
  spaces : pf.devtree.Pairwise fun a b => entryMatch a b = false ∧ entryMatch b a = false
  nodup : s₀.listed.Nodup
  nonnull : 0 ∉ s₀.listed
  unique : s₀.NamesUnique
  roots : ∀ d ∈ s₀.listed, (s₀.devs d).bus = 0
  undriven : s₀.undriven = []
  origin : ∀ d ∈ s₀.listed, s₀.origin d = (s₀.devs d).name

/-- The names that come to be registered: those of the root buses, and those of accepted
entries whose parent comes to be registered. -/
inductive Registers (pf : Platform) (s₀ : Probe) : CString → Prop
  | root {d : Nat} (h : d ∈ s₀.listed) : Registers pf s₀ (s₀.devs d).name
  | entry {e : DevtreeEntry} (h : e ∈ pf.devtree) (haccepts : pf.accepts e = true)
      (hparent : Registers pf s₀ e.parent) : Registers pf s₀ e.name

/-- Entries can be told apart by `__dev_match`: siblings with as many register spaces, on
a bus other than `memory`, are accepted together; and an entry that carries the name of a
root bus describes it. -/
structure Distinguished (pf : Platform) (s₀ : Probe) : Prop where
  siblings : ∀ a ∈ pf.devtree, ∀ b ∈ pf.devtree, a.parent = b.parent → a.nregs = b.nregs →
    a.parent ≠ memoryName → Registers pf s₀ a.parent → pf.accepts a = true →
    pf.accepts b = true
  roots : ∀ e ∈ pf.devtree, ∀ d ∈ s₀.listed, (s₀.devs d).name = e.name →
    (s₀.devs d).nregs = e.nregs ∧ ¬ Registers pf s₀ e.parent

/-! ### Look-ups -/

variable {a b : DevtreeEntry} {us : List DevtreeEntry}

theorem eq_of_name (hs : Setup pf s₀) (ha : a ∈ pf.devtree) (hb : b ∈ pf.devtree)
    (h : a.name = b.name) : a = b :=
  List.inj_on_of_nodup_map hs.names ha hb h

theorem eq_of_entryMatch (hs : Setup pf s₀) (ha : a ∈ pf.devtree) (hb : b ∈ pf.devtree)
    (h : entryMatch a b = true) : a = b := by
  by_contra hne
  have hsymm : Std.Symm fun a b => entryMatch a b = false ∧ entryMatch b a = false :=
    ⟨fun _ _ hab => ⟨hab.2, hab.1⟩⟩
  have hspaces := hs.spaces.forall ha hb hne
  rw [h] at hspaces
  exact Bool.noConfusion hspaces.1

theorem devFromName_eq (hunique : s.NamesUnique) (hd : d ∈ s.listed)
    (hname : (s.devs d).name = name) : s.devFromName name = d := by
  unfold devFromName
  cases hfind : s.listed.find? fun d => decide ((s.devs d).name.strcmp name = 0) with
  | none =>
    have hnot := List.find?_eq_none.mp hfind d hd
    exact absurd hname (by simpa using hnot)
  | some d' =>
    have hname' : (s.devs d').name = name := by simpa using List.find?_some hfind
    exact hunique d' (List.mem_of_find?_eq_some hfind) d hd (hname'.trans hname.symm)

theorem devFromName_eq_zero (hnull : 0 ∉ s.listed) :
    s.devFromName name = 0 ↔ ¬ s.Named name := by
  unfold devFromName Named
  cases hfind : s.listed.find? fun d => decide ((s.devs d).name.strcmp name = 0) with
  | none =>
    refine iff_of_true rfl ?_
    rintro ⟨d, hd, hname⟩
    exact List.find?_eq_none.mp hfind d hd (by simpa using hname)
  | some d =>
    have hmem := List.mem_of_find?_eq_some hfind
    refine iff_of_false ?_ (not_not.mpr ⟨d, hmem, by simpa using List.find?_some hfind⟩)
    rintro rfl
    exact hnull hmem

theorem checkDupDevice_ne_zero (hnull : 0 ∉ s.listed) :
    s.checkDupDevice e ≠ 0 ↔ ∃ d ∈ s.listed, s.devMatch d e = true := by
  unfold checkDupDevice
  cases hfind : s.listed.find? fun d => s.devMatch d e with
  | none =>
    refine iff_of_false (by simp) ?_
    rintro ⟨d, hd, hmatch⟩
    exact List.find?_eq_none.mp hfind d hd hmatch
  | some d =>
    have hmem := List.mem_of_find?_eq_some hfind
    have hmatch : s.devMatch d e = true := List.find?_some (p := fun d => s.devMatch d e) hfind
    refine iff_of_true ?_ ⟨d, hmem, hmatch⟩
    rintro rfl
    exact hnull hmem

/-! ### The invariant -/

/-- A device created for the entry: it stands for it on its parent bus. -/
structure CreatedFor (s : Probe) (e : DevtreeEntry) (d : Nat) : Prop where
  name : (s.devs d).name = e.name
  nregs : (s.devs d).nregs = e.nregs
  bases : (s.devs d).bases = e.regs
  bus : (s.devs d).bus ∈ s.listed
  parent : (s.devs (s.devs d).bus).name = e.parent

/-- The devices are the root buses, as they were, and devices created for accepted
entries; each carries the name it was registered under. -/
structure Inv (pf : Platform) (s₀ s : Probe) : Prop where
  nodup : s.listed.Nodup
  nonnull : 0 ∉ s.listed
  unique : s.NamesUnique
  origin : ∀ d ∈ s.listed, s.origin d = (s.devs d).name
  roots : ∀ d ∈ s₀.listed, d ∈ s.listed ∧ s.devs d = s₀.devs d
  kinds : ∀ d ∈ s.listed, d ∈ s₀.listed ∨
    ∃ e ∈ pf.devtree, pf.accepts e = true ∧ Registers pf s₀ e.parent ∧ CreatedFor s e d

/-- Entries that wait for a driver: their bus is registered, and they are not. -/
structure Pending (pf : Platform) (us : List DevtreeEntry) (s : Probe) : Prop where
  nodup : us.Nodup
  mem : ∀ u ∈ us, u ∈ pf.devtree
  bus : ∀ u ∈ us, s.Named u.parent
  absent : ∀ u ∈ us, ¬ s.Named u.name

/-- A bus with one device has a device for each accepted entry. -/
def Settled (pf : Platform) (s : Probe) : Prop :=
  ∀ d ∈ s.listed, (s.devs d).bus ≠ 0 → ∀ e ∈ pf.devtree, pf.accepts e = true →
    (s.devs (s.devs d).bus).name = e.parent → s.Named e.name

theorem Setup.inv (hs : Setup pf s₀) : Inv pf s₀ s₀ :=
  ⟨hs.nodup, hs.nonnull, hs.unique, hs.origin, fun _ hd => ⟨hd, rfl⟩, fun _ hd => .inl hd⟩

theorem Setup.settled (hs : Setup pf s₀) : Settled pf s₀ :=
  fun d hd hbus => absurd (hs.roots d hd) hbus

/-- The list of undriven entries is not part of the invariant. -/
theorem Inv.withUndriven (h : Inv pf s₀ s) (us : List DevtreeEntry) :
    Inv pf s₀ { s with undriven := us } := by
  refine ⟨h.nodup, h.nonnull, h.unique, h.origin, h.roots, fun d hd => ?_⟩
  rcases h.kinds d hd with hroot | ⟨e, he, hacc, hparent, hcreated⟩
  · exact .inl hroot
  · exact .inr ⟨e, he, hacc, hparent,
      ⟨hcreated.name, hcreated.nregs, hcreated.bases, hcreated.bus, hcreated.parent⟩⟩

/-- Nor does it matter for the entries that wait which of them are on it. -/
theorem Pending.withUndriven (h : Pending pf us s) (us' : List DevtreeEntry) :
    Pending pf us { s with undriven := us' } :=
  ⟨h.nodup, h.mem, h.bus, h.absent⟩

/-- Registered names are among those that come to be registered. -/
theorem Inv.registers (h : Inv pf s₀ s) (hname : s.Named name) : Registers pf s₀ name := by
  obtain ⟨d, hd, rfl⟩ := hname
  rcases h.kinds d hd with hroot | ⟨e, he, hacc, hparent, hcreated⟩
  · rw [(h.roots d hroot).2]
    exact .root hroot
  · rw [hcreated.name]
    exact .entry he hacc hparent

/-- The device that carries an entry's name matches the entry. -/
theorem Inv.devMatch (h : Inv pf s₀ s) (hs : Setup pf s₀) (hc : Distinguished pf s₀)
    (he : e ∈ pf.devtree) (hd : d ∈ s.listed) (hname : (s.devs d).name = e.name) :
    s.devMatch d e = true := by
  rcases h.kinds d hd with hroot | ⟨e', he', -, -, hcreated⟩
  · have hsame := (h.roots d hroot).2
    rw [hsame] at hname
    obtain ⟨hnregs, hparent⟩ := hc.roots e he d hroot hname
    have hnull : s.devFromName e.parent = 0 :=
      (devFromName_eq_zero h.nonnull).mpr fun hnamed => hparent (h.registers hnamed)
    simp [Probe.devMatch, hsame, hnregs, hs.roots d hroot, hnull]
  · obtain rfl := eq_of_name hs he' he (hcreated.name.symm.trans hname)
    have hbus := devFromName_eq h.unique hcreated.bus hcreated.parent
    simp [Probe.devMatch, hcreated.nregs, hbus]

/-- Any device that matches an entry whose bus is registered was created for a sibling
with as many register spaces. -/
theorem Inv.sibling (h : Inv pf s₀ s) (hs : Setup pf s₀) (hd : d ∈ s.listed)
    (hmatch : s.devMatch d e = true) (hbus : s.Named e.parent) :
    ∃ a ∈ pf.devtree, pf.accepts a = true ∧ a.parent = e.parent ∧ a.nregs = e.nregs ∧
      (s.devs d).bus ≠ 0 ∧ (s.devs (s.devs d).bus).name = e.parent := by
  obtain ⟨b, hb, hbname⟩ := hbus
  simp only [Probe.devMatch, Bool.and_eq_true, decide_eq_true_eq] at hmatch
  rw [devFromName_eq h.unique hb hbname] at hmatch
  have hb0 : b ≠ 0 := by
    rintro rfl
    exact h.nonnull hb
  rcases h.kinds d hd with hroot | ⟨a, ha, hacc, -, hcreated⟩
  · rw [(h.roots d hroot).2, hs.roots d hroot] at hmatch
    exact absurd hmatch.2.symm hb0
  · refine ⟨a, ha, hacc, ?_, hcreated.nregs.symm.trans hmatch.1, ?_, ?_⟩
    · rw [← hcreated.parent, hmatch.2, hbname]
    · rw [hmatch.2]
      exact hb0
    · rw [hmatch.2, hbname]

/-! ### The scan -/

theorem Pending.append (h : Pending pf us s) (he : e ∈ pf.devtree) (hbus : s.Named e.parent)
    (hname : ¬ s.Named e.name) (hnew : e ∉ us) :
    Pending pf (us ++ [e]) s := by
  refine ⟨?_, ?_, ?_, ?_⟩
  · rw [List.nodup_append]
    refine ⟨h.nodup, List.nodup_singleton e, fun u hu v hv => ?_⟩
    rw [List.mem_singleton.mp hv]
    rintro rfl
    exact hnew hu
  all_goals
    intro u hu
    rcases List.mem_append.mp hu with hu | hu
  · exact h.mem u hu
  · rw [List.mem_singleton.mp hu]
    exact he
  · exact h.bus u hu
  · rw [List.mem_singleton.mp hu]
    exact hbus
  · exact h.absent u hu
  · rw [List.mem_singleton.mp hu]
    exact hname

/-- An entry without a device that passes for a duplicate of one is on the memory bus, and no
driver accepts it. -/
theorem Inv.duplicate (h : Inv pf s₀ s) (hs : Setup pf s₀) (hc : Distinguished pf s₀)
    (hsettled : Settled pf s) (he : e ∈ pf.devtree) (hname : ¬ s.Named e.name)
    (hbus : s.Named e.parent) (hdup : s.checkDupDevice e ≠ 0) :
    pf.accepts e = false ∧ e.parent.strcmp memoryName = 0 := by
  obtain ⟨d, hd, hmatch⟩ := (checkDupDevice_ne_zero h.nonnull).mp hdup
  obtain ⟨a, ha, hacc, hparent, hnregs, hdbus, hdparent⟩ := h.sibling hs hd hmatch hbus
  have hrefused : pf.accepts e = false := by
    by_contra haccepts
    rw [Bool.not_eq_false] at haccepts
    exact hname (hsettled d hd hdbus e he haccepts hdparent)
  refine ⟨hrefused, ?_⟩
  rw [CString.strcmp_eq_zero]
  by_contra hother
  have haccepts := hc.siblings a ha e he hparent hnregs (by rw [hparent]; exact hother)
    (by rw [hparent]; exact h.registers hbus) hacc
  rw [hrefused] at haccepts
  exact Bool.noConfusion haccepts

/-- The scan of an entry renames nothing: it at most puts the entry on the list of undriven
entries, and does so if a driver accepts it and its bus is known. -/
theorem scanEntry_spec (hs : Setup pf s₀) (hc : Distinguished pf s₀) (h : Inv pf s₀ s)
    (hsettled : Settled pf s) (hpending : Pending pf s.undriven s) (he : e ∈ pf.devtree) :
    ∃ us, s.scanEntry e = .ok { s with undriven := us } ∧ Pending pf us s ∧
      s.undriven ⊆ us ∧ (pf.accepts e = true → s.Named e.parent → ¬ s.Named e.name → e ∈ us) := by
  unfold scanEntry
  by_cases hname : s.Named e.name
  · -- the device is there already
    obtain ⟨d, hd, hdname⟩ := id hname
    have hfound := devFromName_eq h.unique hd hdname
    have hd0 : d ≠ 0 := by
      rintro rfl
      exact h.nonnull hd
    refine ⟨s.undriven, ?_, hpending, fun _ hu => hu, fun _ _ hnot => absurd hname hnot⟩
    dsimp only
    rw [hfound, if_pos hd0, if_pos (h.devMatch hs hc he hd hdname)]
  · have hnull := (devFromName_eq_zero h.nonnull).mpr hname
    by_cases hbus : s.Named e.parent
    swap
    · -- the bus is not known
      have hbusnull := (devFromName_eq_zero h.nonnull).mpr hbus
      refine ⟨s.undriven, ?_, hpending, fun _ hu => hu, fun _ hnot => absurd hnot hbus⟩
      dsimp only
      rw [if_neg (not_not.mpr hnull), if_pos hbusnull]
    have hbusfound : s.devFromName e.parent ≠ 0 := fun h0 =>
      (devFromName_eq_zero h.nonnull).mp h0 hbus
    by_cases hdup : s.checkDupDevice e ≠ 0
    · -- a device with as many register spaces on the same bus: only on the memory bus
      obtain ⟨hrefused, hmemory⟩ := h.duplicate hs hc hsettled he hname hbus hdup
      refine ⟨s.undriven, ?_, hpending, fun _ hu => hu, ?_⟩
      · dsimp only
        rw [if_neg (not_not.mpr hnull), if_neg hbusfound, if_neg (fun hboth => hboth.2 hmemory),
          discoverDevice, if_pos hdup]
      · intro haccepts
        rw [hrefused] at haccepts
        exact Bool.noConfusion haccepts
    · by_cases hlisted : (s.undriven.any fun u => entryMatch u e) = true
      · -- it waits for a driver already
        obtain ⟨u, hu, hmatch⟩ := List.any_eq_true.mp hlisted
        obtain rfl := eq_of_entryMatch hs (hpending.mem u hu) he hmatch
        refine ⟨s.undriven, ?_, hpending, fun _ hu => hu, fun _ _ _ => hu⟩
        dsimp only
        rw [if_neg (not_not.mpr hnull), if_neg hbusfound, if_neg (fun hboth => hdup hboth.1),
          discoverDevice, if_neg hdup, if_pos hlisted]
      · refine ⟨s.undriven ++ [e], ?_, ?_, List.subset_append_left _ _, fun _ _ _ => by simp⟩
        · dsimp only
          rw [if_neg (not_not.mpr hnull), if_neg hbusfound, if_neg (fun hboth => hdup hboth.1),
            discoverDevice, if_neg hdup, if_neg hlisted]
        · refine hpending.append he hbus hname fun hu => ?_
          exact hlisted (List.any_eq_true.mpr ⟨e, hu, by simp [entryMatch]⟩)

theorem scan_spec (hs : Setup pf s₀) (hc : Distinguished pf s₀) (h : Inv pf s₀ s)
    (hsettled : Settled pf s) (hpending : Pending pf s.undriven s) {es : List DevtreeEntry}
    (hes : ∀ e ∈ es, e ∈ pf.devtree) :
    ∃ us, es.foldlM scanEntry s = .ok { s with undriven := us } ∧ Pending pf us s ∧
      s.undriven ⊆ us ∧
      ∀ e ∈ es, pf.accepts e = true → s.Named e.parent → ¬ s.Named e.name → e ∈ us := by
  induction es generalizing s with
  | nil =>
    exact ⟨s.undriven, rfl, hpending, fun _ hu => hu, fun _ he => absurd he List.not_mem_nil⟩
  | cons e es ih =>
    obtain ⟨us, hscan, hus, hsub, hnew⟩ :=
      scanEntry_spec hs hc h hsettled hpending (hes e (by simp))
    obtain ⟨us', hscan', hus', hsub', hnew'⟩ := ih (h.withUndriven us) hsettled
      (hus.withUndriven us) fun e' he' => hes e' (List.mem_cons_of_mem e he')
    refine ⟨us', ?_, ⟨hus'.nodup, hus'.mem, hus'.bus, hus'.absent⟩,
      fun u hu => hsub' (hsub hu), ?_⟩
    · rw [List.foldlM_cons, hscan]
      exact hscan'
    · intro e' he' hacc hbus habsent
      rcases List.mem_cons.mp he' with rfl | he'
      · exact hsub' (hnew hacc hbus habsent)
      · exact hnew' e' he' hacc hbus habsent

/-! ### The drivers -/

/-- Devices are only added. -/
structure Extends (s s' : Probe) : Prop where
  listed : ∀ d ∈ s.listed, d ∈ s'.listed
  devs : ∀ d ∈ s.listed, s'.devs d = s.devs d

theorem Extends.refl (s : Probe) : Extends s s := ⟨fun _ hd => hd, fun _ _ => rfl⟩

theorem Extends.trans {s'' : Probe} (h : Extends s s') (h' : Extends s' s'') : Extends s s'' :=
  ⟨fun d hd => h'.listed d (h.listed d hd),
    fun d hd => (h'.devs d (h.listed d hd)).trans (h.devs d hd)⟩

theorem Extends.named (h : Extends s s') (hname : s.Named name) : s'.Named name := by
  obtain ⟨d, hd, rfl⟩ := hname
  exact ⟨d, h.listed d hd, by rw [h.devs d hd]⟩

theorem CreatedFor.extends (hc : CreatedFor s e d) (hd : d ∈ s.listed) (h : Extends s s') :
    CreatedFor s' e d := by
  have hdev := h.devs d hd
  refine ⟨?_, ?_, ?_, ?_, ?_⟩
  · rw [hdev]
    exact hc.name
  · rw [hdev]
    exact hc.nregs
  · rw [hdev]
    exact hc.bases
  · rw [hdev]
    exact h.listed _ hc.bus
  · rw [hdev, h.devs _ hc.bus]
    exact hc.parent

end Probe

/-- A device for the entry was registered at `dev`. -/
structure NewDevice (e : DevtreeEntry) (s t : Probe) (dev : Nat) : Prop where
  fresh : dev ∉ s.listed
  nonnull : dev ≠ 0
  name : (t.devs dev).name = e.name
  nregs : (t.devs dev).nregs = e.nregs
  bases : (t.devs dev).bases = e.regs
  bus : (t.devs dev).bus = s.devFromName e.parent
  others : ∀ d ∈ s.listed, t.devs d = s.devs d
  listed : ∃ l l', s.listed = l ++ l' ∧ t.listed = l ++ dev :: l'

namespace NewDevice

variable {e : DevtreeEntry} {s t : Probe} {dev : Nat}

theorem perm (h : NewDevice e s t dev) : t.listed.Perm (dev :: s.listed) := by
  obtain ⟨l, l', hs, ht⟩ := h.listed
  rw [hs, ht]
  exact List.perm_middle

theorem mem_listed (h : NewDevice e s t dev) {d : Nat} : d ∈ t.listed ↔ d = dev ∨ d ∈ s.listed := by
  rw [h.perm.mem_iff, List.mem_cons]

theorem nodup (h : NewDevice e s t dev) (hs : s.listed.Nodup) : t.listed.Nodup :=
  h.perm.nodup_iff.mpr (List.nodup_cons.mpr ⟨h.fresh, hs⟩)

theorem zero_notMem (h : NewDevice e s t dev) (hs : 0 ∉ s.listed) : 0 ∉ t.listed := by
  rw [h.mem_listed]
  exact fun hzero => hzero.elim (fun heq => h.nonnull heq.symm) hs

end NewDevice

namespace Probe

variable {pf : Platform} {s₀ s s' : Probe} {name : CString} {d : Nat} {e : DevtreeEntry}

theorem driverNew_new (pf : Platform) (drv : Driver) (e : DevtreeEntry) (s : Probe) :
    NewDevice e s (s.driverNew pf drv e) (pf.heap.kmalloc s.listed) := by
  have hfresh := pf.heap.fresh s.listed
  have hself : (s.driverNew pf drv e).devs (pf.heap.kmalloc s.listed) =
      ⟨e.name.strlcpy devNameMax, drv.devno e, s.devFromName e.parent, e.regs, e.nregs⟩ :=
    Function.update_self ..
  have hne : ∀ d ∈ s.listed, d ≠ pf.heap.kmalloc s.listed := by
    intro d hd heq
    rw [heq] at hd
    exact hfresh hd
  refine ⟨hfresh, pf.heap.nonnull s.listed, ?_, ?_, ?_, ?_, fun d hd => ?_,
    _, _, (List.takeWhile_append_dropWhile).symm, rfl⟩
  · rw [hself]
    exact CString.strlcpy_of_lt e.fits
  · rw [hself]
  · rw [hself]
  · rw [hself]
  · exact Function.update_of_ne (hne d hd) ..

/-- `new` registers one device, for the entry it accepts. -/
theorem driverNew_spec (h : Inv pf s₀ s) (drv : Driver) (he : e ∈ pf.devtree)
    (hacc : pf.accepts e = true) (hbus : s.Named e.parent) (habsent : ¬ s.Named e.name) :
    Inv pf s₀ (s.driverNew pf drv e) ∧ Extends s (s.driverNew pf drv e) ∧
      (s.driverNew pf drv e).undriven = s.undriven ∧
      ∀ name, (s.driverNew pf drv e).Named name ↔ s.Named name ∨ name = e.name := by
  obtain ⟨b, hb, hbname⟩ := id hbus
  have hfound := devFromName_eq h.unique hb hbname
  have hnew := driverNew_new pf drv e s
  have horigin : (s.driverNew pf drv e).origin =
      Function.update s.origin (pf.heap.kmalloc s.listed) e.name := rfl
  have hundriven : (s.driverNew pf drv e).undriven = s.undriven := rfl
  generalize s.driverNew pf drv e = s', pf.heap.kmalloc s.listed = dev at hnew horigin hundriven
  have hne : ∀ d ∈ s.listed, d ≠ dev := by
    rintro d hd rfl
    exact hnew.fresh hd
  have hext : Extends s s' := ⟨fun d hd => hnew.mem_listed.mpr (.inr hd), hnew.others⟩
  have hcreated : CreatedFor s' e dev := by
    refine ⟨hnew.name, hnew.nregs, hnew.bases, ?_, ?_⟩
    · rw [hnew.bus, hfound]
      exact hext.listed b hb
    · rw [hnew.bus, hfound, hnew.others b hb]
      exact hbname
  refine ⟨⟨hnew.nodup h.nodup, hnew.zero_notMem h.nonnull, ?_, ?_, ?_, ?_⟩, hext, hundriven, ?_⟩
  · intro d hd d' hd' hname
    rcases hnew.mem_listed.mp hd with rfl | hd <;> rcases hnew.mem_listed.mp hd' with rfl | hd'
    · rfl
    · refine absurd ⟨d', hd', ?_⟩ habsent
      rw [← hnew.others d' hd', ← hname]
      exact hnew.name
    · refine absurd ⟨d, hd, ?_⟩ habsent
      rw [← hnew.others d hd, hname]
      exact hnew.name
    · rw [hnew.others d hd, hnew.others d' hd'] at hname
      exact h.unique d hd d' hd' hname
  · intro d hd
    rw [horigin]
    rcases hnew.mem_listed.mp hd with rfl | hd
    · rw [hnew.name, Function.update_self]
    · rw [hnew.others d hd, ← h.origin d hd, Function.update_of_ne (hne d hd)]
  · intro d hd
    obtain ⟨hd', hsame⟩ := h.roots d hd
    exact ⟨hext.listed d hd', (hnew.others d hd').trans hsame⟩
  · intro d hd
    rcases hnew.mem_listed.mp hd with rfl | hd
    · exact .inr ⟨e, he, hacc, h.registers hbus, hcreated⟩
    · rcases h.kinds d hd with hroot | ⟨a, ha, hacc', hparent, hcreated'⟩
      · exact .inl hroot
      · exact .inr ⟨a, ha, hacc', hparent, hcreated'.extends hd hext⟩
  · intro name
    constructor
    · rintro ⟨d, hd, rfl⟩
      rcases hnew.mem_listed.mp hd with rfl | hd
      · exact .inr hnew.name
      · exact .inl ⟨d, hd, by rw [hnew.others d hd]⟩
    · rintro (hname | rfl)
      · exact hext.named hname
      · exact ⟨dev, hnew.mem_listed.mpr (.inl rfl), hnew.name⟩

/-- What the drivers make of a list of pending entries. -/
structure PickedUp (pf : Platform) (s₀ s : Probe) (us : List DevtreeEntry) (found : Bool)
    (kept : List DevtreeEntry) (s' : Probe) : Prop where
  inv : Inv pf s₀ s'
  ext : Extends s s'
  pending : Pending pf kept s'
  kept : kept ⊆ us
  accepted : ∀ u ∈ us, pf.accepts u = true → s'.Named u.name
  only : ∀ name, s'.Named name → s.Named name ∨ ∃ u ∈ us, name = u.name
  idle : found = false → s' = s
  busy : found = true → ∃ u ∈ us, pf.accepts u = true

theorem find_accepts : (pf.drivers.find? fun drv => drv.accepts e) = none ↔
    pf.accepts e = false := by
  rw [List.find?_eq_none, Platform.accepts, List.any_eq_false]

theorem pickUp_spec (hs : Setup pf s₀) {us : List DevtreeEntry} (h : Inv pf s₀ s)
    (hpending : Pending pf us s) :
    PickedUp pf s₀ s us (pickUp pf us s).1 (pickUp pf us s).2.1 (pickUp pf us s).2.2 := by
  induction us generalizing s with
  | nil =>
    exact ⟨h, .refl s, hpending, fun _ hu => hu, fun _ hu => absurd hu List.not_mem_nil,
      fun _ hname => .inl hname, fun _ => rfl, fun hfound => Bool.noConfusion hfound⟩
  | cons u us ih =>
    obtain ⟨hu, hnd⟩ := List.nodup_cons.mp hpending.nodup
    have hmem := hpending.mem u (by simp)
    have hbus := hpending.bus u (by simp)
    have habsent := hpending.absent u (by simp)
    have hrest : ∀ v ∈ us, v ∈ u :: us := fun v hv => List.mem_cons_of_mem u hv
    cases hdrv : pf.drivers.find? fun drv => drv.accepts u with
    | none =>
      have hrefused := find_accepts.mp hdrv
      have hpick := ih h ⟨hnd, fun v hv => hpending.mem v (hrest v hv),
        fun v hv => hpending.bus v (hrest v hv), fun v hv => hpending.absent v (hrest v hv)⟩
      have hrun : pickUp pf (u :: us) s = ((pickUp pf us s).1, u :: (pickUp pf us s).2.1,
          (pickUp pf us s).2.2) := by
        rw [pickUp, hdrv]
      rw [hrun]
      have habsent' : ¬ (pickUp pf us s).2.2.Named u.name := by
        intro hname
        rcases hpick.only _ hname with hold | ⟨v, hv, hsame⟩
        · exact habsent hold
        · obtain rfl := eq_of_name hs hmem (hpending.mem v (hrest v hv)) hsame
          exact hu hv
      refine ⟨hpick.inv, hpick.ext, ⟨?_, ?_, ?_, ?_⟩, ?_, ?_, ?_, hpick.idle, ?_⟩
      · exact List.nodup_cons.mpr ⟨fun hk => hu (hpick.kept hk), hpick.pending.nodup⟩
      · exact List.forall_mem_cons.mpr ⟨hmem, hpick.pending.mem⟩
      · exact List.forall_mem_cons.mpr ⟨hpick.ext.named hbus, hpick.pending.bus⟩
      · exact List.forall_mem_cons.mpr ⟨habsent', hpick.pending.absent⟩
      · exact List.cons_subset_cons u hpick.kept
      · refine List.forall_mem_cons.mpr ⟨fun hacc => ?_, hpick.accepted⟩
        rw [hrefused] at hacc
        exact Bool.noConfusion hacc
      · intro name hname
        rcases hpick.only name hname with hold | ⟨v, hv, hsame⟩
        · exact .inl hold
        · exact .inr ⟨v, hrest v hv, hsame⟩
      · intro hfound
        obtain ⟨v, hv, hacc⟩ := hpick.busy hfound
        exact ⟨v, hrest v hv, hacc⟩
    | some drv =>
      have hacc : pf.accepts u = true := by
        by_contra hrefused
        rw [Bool.not_eq_true] at hrefused
        rw [find_accepts.mpr hrefused] at hdrv
        cases hdrv
      obtain ⟨hinv, hext, -, hnamed⟩ := driverNew_spec h drv hmem hacc hbus habsent
      have hpick := ih hinv ⟨hnd, fun v hv => hpending.mem v (hrest v hv),
        fun v hv => hext.named (hpending.bus v (hrest v hv)), fun v hv hname => by
          rcases (hnamed v.name).mp hname with hold | hsame
          · exact hpending.absent v (hrest v hv) hold
          · obtain rfl := eq_of_name hs (hpending.mem v (hrest v hv)) hmem hsame
            exact hu hv⟩
      have hrun : pickUp pf (u :: us) s = (true, (pickUp pf us (s.driverNew pf drv u)).2) := by
        rw [pickUp, hdrv]
      rw [hrun]
      refine ⟨hpick.inv, hext.trans hpick.ext, hpick.pending, ?_, ?_, ?_, ?_, ?_⟩
      · exact fun v hv => hrest v (hpick.kept hv)
      · refine List.forall_mem_cons.mpr ⟨fun _ => ?_, hpick.accepted⟩
        exact hpick.ext.named ((hnamed u.name).mpr (.inr rfl))
      · intro name hname
        rcases hpick.only name hname with hold | ⟨v, hv, hsame⟩
        · rcases (hnamed name).mp hold with hold | hsame
          · exact .inl hold
          · exact .inr ⟨u, by simp, hsame⟩
        · exact .inr ⟨v, hrest v hv, hsame⟩
      · exact fun hfound => Bool.noConfusion hfound
      · exact fun _ => ⟨u, by simp, hacc⟩

/-! ### Passes -/

/-- What a pass leaves behind. -/
structure Passed (pf : Platform) (s₀ s : Probe) (found : Bool) (s' : Probe) : Prop where
  inv : Inv pf s₀ s'
  settled : Settled pf s'
  pending : Pending pf s'.undriven s'
  ext : Extends s s'
  accepted : ∀ e ∈ pf.devtree, pf.accepts e = true → s.Named e.parent → s'.Named e.name
  idle : found = false → ∀ name, s'.Named name → s.Named name
  busy : found = true → ∃ e ∈ pf.devtree, ¬ s.Named e.name ∧ s'.Named e.name

/-- One pass creates a device for every accepted entry whose bus was known before it. -/
theorem pass_spec (hs : Setup pf s₀) (hc : Distinguished pf s₀) (h : Inv pf s₀ s)
    (hsettled : Settled pf s) (hpending : Pending pf s.undriven s) :
    ∃ found s', s.probePass pf = .ok (found, s') ∧ Passed pf s₀ s found s' := by
  obtain ⟨us, hscan, hus, -, hnew⟩ := scan_spec hs hc h hsettled hpending fun _ he => he
  have hpick := pickUp_spec hs (h.withUndriven us) (hus.withUndriven us)
  set found := (pickUp pf us { s with undriven := us }).1
  set kept := (pickUp pf us { s with undriven := us }).2.1
  set s1 := (pickUp pf us { s with undriven := us }).2.2
  have hrun : s.probePass pf = .ok (found, { s1 with undriven := kept }) := by
    rw [probePass, hscan]
    rfl
  have hext : Extends s { s1 with undriven := kept } := ⟨hpick.ext.listed, hpick.ext.devs⟩
  have hinv : Inv pf s₀ { s1 with undriven := kept } := hpick.inv.withUndriven kept
  have haccepted : ∀ e ∈ pf.devtree, pf.accepts e = true → s.Named e.parent →
      s1.Named e.name := by
    intro e he hacc hbus
    by_cases hname : s.Named e.name
    · exact hext.named hname
    · exact hpick.accepted e (hnew e he hacc hbus hname) hacc
  refine ⟨found, _, hrun, hinv, ?_, hpick.pending.withUndriven kept, hext, haccepted, ?_, ?_⟩
  · -- the bus of a new device was known before the pass, and so was that of an old one
    intro d hd hbus e he hacc hparent
    refine haccepted e he hacc ?_
    rcases hpick.inv.kinds d hd with hroot | ⟨a, ha, -, -, hcreated⟩
    · refine absurd ?_ hbus
      rw [(hpick.inv.roots d hroot).2]
      exact hs.roots d hroot
    · rw [← show a.parent = e.parent from hcreated.parent.symm.trans hparent]
      rcases hpick.only a.name ⟨d, hd, hcreated.name⟩ with ⟨d', hd', hname⟩ | ⟨u, hu, hname⟩
      · have hsame : d = d' := by
          refine hpick.inv.unique d hd d' (hext.listed d' hd') ?_
          rw [hext.devs d' hd', hcreated.name]
          exact hname.symm
        subst hsame
        rcases h.kinds d hd' with hroot | ⟨a', ha', -, -, hcreated'⟩
        · refine absurd ?_ hbus
          rw [(hpick.inv.roots d hroot).2]
          exact hs.roots d hroot
        · obtain rfl := eq_of_name hs ha' ha (hcreated'.name.symm.trans hname)
          exact ⟨_, hcreated'.bus, hcreated'.parent⟩
      · obtain rfl := eq_of_name hs ha (hus.mem u hu) hname
        exact hus.bus a hu
  · intro hidle name hname
    have hsame := hpick.idle hidle
    have hname' : s1.Named name := hname
    rw [hsame] at hname'
    exact hname'
  · intro hbusy
    obtain ⟨u, hu, hacc⟩ := hpick.busy hbusy
    exact ⟨u, hus.mem u hu, hus.absent u hu, hpick.accepted u hu hacc⟩

/-- The entries whose name is not registered. -/
def missing (pf : Platform) (s : Probe) : List DevtreeEntry :=
  pf.devtree.filter fun e => s.devFromName e.name = 0

/-- A pass that creates a device leaves fewer entries without one. -/
theorem Passed.missing_lt {found : Bool} (hnull : 0 ∉ s.listed) (h : Passed pf s₀ s found s')
    (hbusy : found = true) : (s'.missing pf).length < (s.missing pf).length := by
  obtain ⟨e, he, habsent, hname⟩ := h.busy hbusy
  have hmem : ∀ t : Probe, 0 ∉ t.listed → ∀ a,
      a ∈ t.missing pf ↔ a ∈ pf.devtree ∧ ¬ t.Named a.name := by
    intro t ht a
    simp only [missing, List.mem_filter, decide_eq_true_eq, devFromName_eq_zero ht]
  have hsub : (s'.missing pf).Sublist (s.missing pf) := by
    refine List.monotone_filter_right _ fun a ha => ?_
    simp only [decide_eq_true_eq, devFromName_eq_zero h.inv.nonnull] at ha
    simp only [decide_eq_true_eq, devFromName_eq_zero hnull]
    exact fun hold => ha (h.ext.named hold)
  refine Nat.lt_of_le_of_ne hsub.length_le fun hlen => ?_
  have heq := hsub.eq_of_length hlen
  have hin : e ∈ s.missing pf := (hmem s hnull e).mpr ⟨he, habsent⟩
  rw [← heq, hmem s' h.inv.nonnull] at hin
  exact hin.2 hname

/-- The passes end, and every accepted entry below a registered bus is registered. -/
theorem probeDevices_spec (hs : Setup pf s₀) (hc : Distinguished pf s₀) (h : Inv pf s₀ s)
    (hsettled : Settled pf s) (hpending : Pending pf s.undriven s) {fuel : Nat}
    (hfuel : (s.missing pf).length < fuel) :
    ∃ s', probeDevices pf fuel s = some (.ok s') ∧ Inv pf s₀ s' ∧
      ∀ e ∈ pf.devtree, pf.accepts e = true → s'.Named e.parent → s'.Named e.name := by
  induction fuel generalizing s with
  | zero => omega
  | succ fuel ih =>
    obtain ⟨found, s1, hpass, hpassed⟩ := pass_spec hs hc h hsettled hpending
    rw [probeDevices, hpass]
    cases found with
    | true =>
      have hlt := hpassed.missing_lt h.nonnull rfl
      exact ih hpassed.inv hpassed.settled hpassed.pending (by omega)
    | false =>
      refine ⟨s1, rfl, hpassed.inv, fun e he hacc hbus => ?_⟩
      exact hpassed.accepted e he hacc (hpassed.idle rfl _ hbus)

/-- Device probing creates what the device tree describes: for a tree whose entries
`__dev_match` can tell apart, probing ends; every accepted entry whose parent chain is
registered has exactly one device with its name, on the entry's register spaces; and every
device carries the name it was registered under. -/
theorem probe_devices_creates (hs : Setup pf s₀) (hc : Distinguished pf s₀) :
    ∃ s', probeDevices pf (pf.devtree.length + 1) s₀ = some (.ok s') ∧
      (∀ e ∈ pf.devtree, pf.accepts e = true → Registers pf s₀ e.parent →
        (∃! d, d ∈ s'.listed ∧ (s'.devs d).name = e.name) ∧
        ∀ d ∈ s'.listed, (s'.devs d).name = e.name →
          (s'.devs d).nregs = e.nregs ∧ (s'.devs d).bases = e.regs) ∧
      ∀ d ∈ s'.listed, ∀ e ∈ pf.devtree, (s'.devs d).name = e.name → s'.origin d = e.name := by
  have hpending : Pending pf s₀.undriven s₀ := by
    rw [hs.undriven]
    exact ⟨.nil, by simp, by simp, by simp⟩
  have hfuel : (s₀.missing pf).length < pf.devtree.length + 1 :=
    Nat.lt_succ_of_le (List.length_filter_le _ _)
  obtain ⟨s', hrun, hinv, hclosed⟩ := probeDevices_spec hs hc hs.inv hs.settled hpending hfuel
  have hnamed : ∀ name, Registers pf s₀ name → s'.Named name := by
    intro name hreg
    induction hreg with
    | @root d hd =>
      obtain ⟨hd', hsame⟩ := hinv.roots d hd
      exact ⟨d, hd', by rw [hsame]⟩
    | entry he hacc _ ih => exact hclosed _ he hacc ih
  refine ⟨s', hrun, ?_, ?_⟩
  · intro e he hacc hparent
    obtain ⟨d, hd, hname⟩ := hnamed e.name (.entry he hacc hparent)
    refine ⟨⟨d, ⟨hd, hname⟩, fun d' hd' => ?_⟩, fun d hd hname => ?_⟩
    · exact hinv.unique d' hd'.1 d hd (hd'.2.trans hname.symm)
    · rcases hinv.kinds d hd with hroot | ⟨a, ha, -, -, hcreated⟩
      · rw [(hinv.roots d hroot).2] at hname
        exact absurd hparent (hc.roots e he d hroot hname).2
      · obtain rfl := eq_of_name hs ha he (hcreated.name.symm.trans hname)
        exact ⟨hcreated.nregs, hcreated.bases⟩
  · intro d hd e _ hname
    rw [hinv.origin d hd]
    exact hname

/-! ### Two controllers on the port bus -/

/-- `"io-port"`. -/
def portName : CString := ⟨[0x69, 0x6f, 0x2d, 0x70, 0x6f, 0x72, 0x74], by decide⟩

/-- A serial controller at port `0x3f8`. -/
def uart : DevtreeEntry :=
  { name := ⟨[0x75, 0x61, 0x72, 0x74], by decide⟩, model := ⟨[0x75], by decide⟩
    parent := portName, nregs := 1, regs := [0x3f8], fits := by decide }

/-- A disk controller at port `0x1f0`. -/
def ide : DevtreeEntry :=
  { name := ⟨[0x69, 0x64, 0x65], by decide⟩, model := ⟨[0x69], by decide⟩
    parent := portName, nregs := 1, regs := [0x1f0], fits := by decide }

/-- Addresses above those in use. -/
def topHeap : DeviceHeap where
  kmalloc l := l.foldr max 0 + 1
  fresh l := by
    have hle : ∀ l : List Nat, ∀ x ∈ l, x ≤ l.foldr max 0 := by
      intro l
      induction l with
      | nil => exact fun x hx => absurd hx List.not_mem_nil
      | cons y l ih =>
        refine List.forall_mem_cons.mpr ⟨Nat.le_max_left _ _, fun x hx => ?_⟩
        exact Nat.le_trans (ih x hx) (Nat.le_max_right _ _)
    intro hmem
    exact Nat.not_succ_le_self _ (hle l _ hmem)
  nonnull _ := Nat.succ_ne_zero _

/-- Both controllers, and one driver for the entries it accepts. -/
def controllers (accepts : DevtreeEntry → Bool) : Platform :=
  ⟨[uart, ide], [⟨accepts, fun _ => 0⟩], topHeap⟩

/-- The port bus at address `1` is registered. -/
def portOnly : Probe := ⟨fun _ => ⟨portName, 0, 0, [], 0⟩, [1], [], fun _ => portName⟩

theorem controllers_setup (accepts : DevtreeEntry → Bool) :
    Setup (controllers accepts) portOnly := by
  have hnames : ([uart, ide].map DevtreeEntry.name).Nodup := by decide
  have hspaces : [uart, ide].Pairwise
      (fun a b => entryMatch a b = false ∧ entryMatch b a = false) := by decide
  refine ⟨hnames, hspaces, by decide, by decide, ?_, by decide, rfl, by decide⟩
  intro d hd d' hd' _
  exact (List.mem_singleton.mp hd).trans (List.mem_singleton.mp hd').symm

/-- With a driver for both, both are created. -/
theorem probe_devices_creates_controllers :
    ∃ s', probeDevices (controllers fun _ => true) 3 portOnly = some (.ok s') ∧
      (∃! d, d ∈ s'.listed ∧ (s'.devs d).name = uart.name) ∧
      ∃! d, d ∈ s'.listed ∧ (s'.devs d).name = ide.name := by
  have hport : Registers (controllers fun _ => true) portOnly portName :=
    .root (d := 1) (by decide)
  have hc : Distinguished (controllers fun _ => true) portOnly := by
    refine ⟨fun a _ b _ _ _ _ _ _ => rfl, fun e he d _ hname => ?_⟩
    have hdiff : ∀ e ∈ (controllers fun _ => true).devtree, portName ≠ e.name := by decide
    exact absurd hname (hdiff e he)
  obtain ⟨s', hrun, hcreated, -⟩ := probe_devices_creates (controllers_setup _) hc
  exact ⟨s', hrun, (hcreated uart (by decide) rfl hport).1, (hcreated ide (by decide) rfl hport).1⟩

/-- With a driver for the serial controller only, its device ends up under the name of the
other one. -/
theorem probe_devices_renames :
    ∃ s', probeDevices (controllers fun e => e = uart) 3 portOnly = some (.ok s') ∧
      ∃ d ∈ s'.listed, s'.origin d = uart.name ∧ (s'.devs d).name = ide.name ∧
        ∀ d ∈ s'.listed, (s'.devs d).name ≠ uart.name := by
  refine ⟨_, rfl, ?_⟩
  decide

end Probe

end AimKernel
