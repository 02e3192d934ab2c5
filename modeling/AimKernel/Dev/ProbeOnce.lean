import AimKernel.Dev.ProbeStops

/-!
# AimKernel.Dev.ProbeOnce

When no entry of the device tree is picked up twice.

`__check_dup_device` returns the first device with as many register spaces as the entry on
the bus of its parent, so of several such devices only the first one is ever renamed
(`Front`). `Homes` assigns to every name the device that carries it or carried it last: a
device that is not the first of its kind keeps its name, and the first one can be found
again through any of the names it had. So an entry whose name has a home is not discovered
again; and a picked entry has one.

This rests on the entries having names of their own, and on drivers that do not change
their mind about an entry: an accepted entry is then picked up in the pass that discovers
it, while there is no device of its kind yet. Without either, an entry can be picked up
twice (`probe_devices_picks_twice`).
-/

namespace AimKernel

open Function (update update_of_ne update_self)

namespace Probe

variable {s t : Probe} {e u : DevtreeEntry} {d dev : Nat}

/-! ### The first device of its kind -/

/-- As many register spaces as `d`, on the same bus. -/
def alike (s : Probe) (d d' : Nat) : Bool :=
  (s.devs d').nregs = (s.devs d).nregs && (s.devs d').bus = (s.devs d).bus

/-- The first device of its kind. -/
def Front (s : Probe) (d : Nat) : Prop := s.listed.find? (s.alike d) = some d

theorem alike_eq_devMatch (hnregs : (s.devs d).nregs = e.nregs)
    (hbus : (s.devs d).bus = s.devFromName e.parent) :
    s.alike d = fun d' => s.devMatch d' e := by
  funext d'
  rw [alike, devMatch, hnregs, hbus]

/-- What `__check_dup_device` finds is the first of its kind. -/
theorem front_checkDupDevice (h : s.checkDupDevice e ≠ 0) :
    s.Front (s.checkDupDevice e) ∧ (s.devs (s.checkDupDevice e)).nregs = e.nregs ∧
      (s.devs (s.checkDupDevice e)).bus = s.devFromName e.parent := by
  cases hfind : s.listed.find? fun d => s.devMatch d e with
  | none =>
    rw [checkDupDevice, hfind] at h
    exact absurd rfl h
  | some d =>
    have hdup : s.checkDupDevice e = d := by
      rw [checkDupDevice, hfind]
      rfl
    have hmatch : s.devMatch d e = true := List.find?_some (p := fun d => s.devMatch d e) hfind
    simp only [devMatch, Bool.and_eq_true, decide_eq_true_eq] at hmatch
    rw [hdup]
    refine ⟨?_, hmatch⟩
    rw [Front, alike_eq_devMatch hmatch.1 hmatch.2]
    exact hfind

theorem Front.checkDupDevice_eq (h : s.Front d) (hnregs : (s.devs d).nregs = e.nregs)
    (hbus : (s.devs d).bus = s.devFromName e.parent) : s.checkDupDevice e = d := by
  rw [Front, alike_eq_devMatch hnregs hbus] at h
  rw [checkDupDevice, h]
  rfl

theorem rename_nregs (s : Probe) (d d' : Nat) (e : DevtreeEntry) :
    ((s.rename d e).devs d').nregs = (s.devs d').nregs := by
  rw [rename_devs]
  split
  case isTrue h => rw [h]
  case isFalse h => rfl

theorem rename_bus (s : Probe) (d d' : Nat) (e : DevtreeEntry) :
    ((s.rename d e).devs d').bus = (s.devs d').bus := by
  rw [rename_devs]
  split
  case isTrue h => rw [h]
  case isFalse h => rfl

/-- Renaming does not change which devices are first. -/
theorem front_rename (s : Probe) (d d' : Nat) (e : DevtreeEntry) :
    (s.rename d e).Front d' ↔ s.Front d' := by
  have halike : (s.rename d e).alike d' = s.alike d' := by
    funext x
    rw [alike, alike, rename_nregs, rename_nregs, rename_bus, rename_bus]
  rw [Front, Front, halike]
  rfl

end Probe

namespace NewDevice

variable {s t : Probe} {u : DevtreeEntry} {d dev : Nat}

theorem alike_eq (h : NewDevice u s t dev) (hd : d ∈ s.listed) {d' : Nat} (hd' : d' ∈ s.listed) :
    t.alike d d' = s.alike d d' := by
  rw [Probe.alike, Probe.alike, h.others d hd, h.others d' hd']

theorem find_alike (h : NewDevice u s t dev) (hd : d ∈ s.listed) {l : List Nat}
    (hl : ∀ d' ∈ l, d' ∈ s.listed) : l.find? (t.alike d) = l.find? (s.alike d) := by
  induction l with
  | nil => rfl
  | cons d' l ih =>
    rw [List.find?_cons, List.find?_cons, h.alike_eq hd (hl d' List.mem_cons_self),
      ih fun x hx => hl x (List.mem_cons_of_mem d' hx)]

/-- A new device does not make another one the first of its kind, and it takes the place of
the first one only if it is of that kind. -/
theorem front_iff (h : NewDevice u s t dev) (hd : d ∈ s.listed) (halike : t.alike d dev = false) :
    t.Front d ↔ s.Front d := by
  obtain ⟨l, l', hs, ht⟩ := h.listed
  have hold : s.Front d ↔ (l ++ l').find? (t.alike d) = some d := by
    rw [Probe.Front, hs, h.find_alike hd fun x hx => hs ▸ hx]
  rw [hold, Probe.Front, ht, List.find?_append, List.find?_append, List.find?_cons, halike]

theorem front_of_front (h : NewDevice u s t dev) (hd : d ∈ s.listed) (hfront : t.Front d) :
    s.Front d := by
  obtain ⟨l, l', hs, ht⟩ := h.listed
  have hne : dev ≠ d := fun heq => h.fresh (heq ▸ hd)
  rw [Probe.Front, ht, List.find?_append, List.find?_cons] at hfront
  rw [Probe.Front, hs, ← h.find_alike hd fun x hx => hs ▸ hx, List.find?_append]
  cases hl : l.find? (t.alike d) with
  | some x =>
    rw [hl] at hfront
    exact hfront
  | none =>
    rw [hl, Option.none_or] at hfront
    cases halike : t.alike d dev with
    | true =>
      rw [halike] at hfront
      exact absurd (Option.some.inj hfront) hne
    | false =>
      rw [halike] at hfront
      exact hfront

end NewDevice

/-! ### Homes -/

/-- The entry's name has a device that keeps it, or that is found through the entry. -/
def Placed (home : CString → Nat) (s : Probe) (e : DevtreeEntry) : Prop :=
  (s.devs (home e.name)).name = e.name ∧
      ((s.devs (home e.name)).bus = 0 ∨ ¬ s.Front (home e.name)) ∨
    s.Front (home e.name) ∧ (s.devs (home e.name)).nregs = e.nregs ∧
      (s.devs (home e.name)).bus = home e.parent ∧ home e.parent ≠ 0

/-- The device that carries a name, or carried it last; `0` for a name that no device had. -/
structure Homes (b : Board) (home : CString → Nat) (s : Probe) : Prop where
  nonnull : 0 ∉ s.listed
  own : ∀ d ∈ s.listed, home (s.devs d).name = d
  listed : ∀ name, home name ≠ 0 → home name ∈ s.listed
  place : ∀ e ∈ b.devtree, home e.name ≠ 0 → Placed home s e

/-- Homes are not given up. -/
def Grows (home home' : CString → Nat) : Prop := ∀ name, home name ≠ 0 → home' name = home name

theorem grows_update {home : CString → Nat} {name : CString} {d : Nat}
    (h : home name ≠ 0 → home name = d) : Grows home (update home name d) := by
  intro n hn
  by_cases heq : n = name
  · subst heq
    rw [update_self, h hn]
  · exact update_of_ne heq ..

namespace Homes

variable {b : Board} {home : CString → Nat} {s t : Probe} {e u : DevtreeEntry} {name : CString}

theorem ne_zero (h : Homes b home s) {d : Nat} (hd : d ∈ s.listed) : d ≠ 0 := by
  rintro rfl
  exact h.nonnull hd

/-- A device found by its name is the home of the name. -/
theorem devFromName_eq (h : Homes b home s) (hne : s.devFromName name ≠ 0) :
    s.devFromName name = home name := by
  have hnamed : s.Named name := by
    by_contra habsent
    exact hne ((Probe.devFromName_eq_zero h.nonnull).mpr habsent)
  have hunique : s.NamesUnique := by
    intro d hd d' hd' hname
    rw [← h.own d hd, ← h.own d' hd', hname]
  obtain ⟨d, hd, rfl⟩ := hnamed
  rw [Probe.devFromName_eq hunique hd rfl, h.own d hd]

/-- While the name is not in use, an entry with a home finds it. -/
theorem checkDupDevice_eq (h : Homes b home s) (he : e ∈ b.devtree) (habsent : ¬ s.Named e.name)
    (hbus : s.devFromName e.parent ≠ 0) (hhome : home e.name ≠ 0) :
    s.checkDupDevice e = home e.name := by
  rcases h.place e he hhome with ⟨hname, _⟩ | ⟨hfront, hnregs, hparent, _⟩
  · exact absurd ⟨_, h.listed _ hhome, hname⟩ habsent
  · exact hfront.checkDupDevice_eq hnregs (hparent.trans (h.devFromName_eq hbus).symm)

theorem home_eq_zero (h : Homes b home s) (he : e ∈ b.devtree) (habsent : ¬ s.Named e.name)
    (hbus : s.devFromName e.parent ≠ 0) (hdup : s.checkDupDevice e = 0) : home e.name = 0 := by
  by_contra hhome
  exact hhome ((h.checkDupDevice_eq he habsent hbus hhome).symm.trans hdup)

/-- The list of undriven entries does not matter. -/
theorem withUndriven (h : Homes b home s) (us : List DevtreeEntry) :
    Homes b home { s with undriven := us } :=
  ⟨h.nonnull, h.own, h.listed, h.place⟩

theorem rename (hnames : (b.devtree.map DevtreeEntry.name).Nodup) (h : Homes b home s)
    (he : e ∈ b.devtree) (habsent : ¬ s.Named e.name) (hbus : s.devFromName e.parent ≠ 0)
    (hdup : s.checkDupDevice e ≠ 0) :
    Homes b (update home e.name (s.checkDupDevice e)) (s.rename (s.checkDupDevice e) e) ∧
      Grows home (update home e.name (s.checkDupDevice e)) := by
  obtain ⟨hfront, hnregs, hdevbus⟩ := Probe.front_checkDupDevice hdup
  have hmem := Probe.mem_of_checkDupDevice hdup
  have hgrows : Grows home (update home e.name (s.checkDupDevice e)) :=
    grows_update fun hhome => (h.checkDupDevice_eq he habsent hbus hhome).symm
  have hparent := h.devFromName_eq hbus
  set d := s.checkDupDevice e
  refine ⟨⟨h.nonnull, fun d' hd' => ?_, fun name hname => ?_, fun e' he' hhome => ?_⟩, hgrows⟩
  · rw [Probe.rename_devs]
    split
    case isTrue heq =>
      rw [heq]
      exact update_self ..
    case isFalse hne =>
      have hother : (s.devs d').name ≠ e.name := fun heq => habsent ⟨d', hd', heq⟩
      rw [update_of_ne hother, h.own d' hd']
  · by_cases heq : name = e.name
    · subst heq
      rw [update_self]
      exact hmem
    · rw [update_of_ne heq] at hname ⊢
      exact h.listed name hname
  · by_cases heq : e'.name = e.name
    · -- the renamed device can be found again through the entry
      obtain rfl := List.inj_on_of_nodup_map hnames he' he heq
      have hhome' : update home e'.name d e'.name = d := update_self ..
      have hparent' : update home e'.name d e'.parent = home e'.parent :=
        hgrows _ (hparent ▸ hbus)
      refine .inr ?_
      rw [hhome', Probe.front_rename, Probe.rename_nregs, Probe.rename_bus, hparent']
      exact ⟨hfront, hnregs, hdevbus.trans hparent, hparent ▸ hbus⟩
    · have hhome' : update home e.name d e'.name = home e'.name :=
        update_of_ne heq ..
      rw [hhome'] at hhome
      unfold Placed
      rw [hhome', Probe.front_rename, Probe.rename_nregs, Probe.rename_bus]
      rcases h.place e' he' hhome with ⟨hname, hstays⟩ | ⟨hfront', hnregs', hbus', hparent'⟩
      · -- a device that keeps its name is not the renamed one
        have hne : home e'.name ≠ d := by
          intro heqd
          rw [heqd] at hstays
          rcases hstays with hzero | hnot
          · exact hbus (hdevbus.symm.trans hzero)
          · exact hnot hfront
        rw [Probe.rename_devs, if_neg hne]
        exact .inl ⟨hname, hstays⟩
      · have hsame := hgrows _ hparent'
        refine .inr ⟨hfront', hnregs', hbus'.trans hsame.symm, ?_⟩
        rw [hsame]
        exact hparent'

end Homes

/-- An entry that waits for a driver: it has no home, its bus has one, and devices of its
kind carry the only name they ever had. -/
structure Due (home : CString → Nat) (s : Probe) (u : DevtreeEntry) : Prop where
  absent : home u.name = 0
  bus : home u.parent ≠ 0
  fresh : ∀ d ∈ s.listed, (s.devs d).nregs = u.nregs → (s.devs d).bus = home u.parent →
    ∀ name, home name = d → (s.devs d).name = name

namespace Homes

variable {b : Board} {home : CString → Nat} {s t : Probe} {e u v : DevtreeEntry} {dev : Nat}

/-- A device is created for an entry that waits. -/
theorem create (hnames : (b.devtree.map DevtreeEntry.name).Nodup) (h : Homes b home s)
    (hu : u ∈ b.devtree) (hdue : Due home s u) (hnew : NewDevice u s t dev) :
    Homes b (update home u.name dev) t ∧ Grows home (update home u.name dev) := by
  have hgrows : Grows home (update home u.name dev) :=
    grows_update fun hhome => absurd hdue.absent hhome
  have hparent : update home u.name dev u.parent = home u.parent := hgrows _ hdue.bus
  refine ⟨⟨hnew.zero_notMem h.nonnull, fun d hd => ?_, fun name hname => ?_,
    fun e he hhome => ?_⟩, hgrows⟩
  · rcases hnew.mem_listed.mp hd with rfl | hd
    · rw [hnew.name, update_self]
    · have hhome : home (s.devs d).name ≠ 0 := by
        rw [h.own d hd]
        exact h.ne_zero hd
      rw [hnew.others d hd, hgrows _ hhome, h.own d hd]
  · by_cases heq : name = u.name
    · rw [heq, update_self]
      exact hnew.mem_listed.mpr (.inl rfl)
    · rw [update_of_ne heq] at hname ⊢
      exact hnew.mem_listed.mpr (.inr (h.listed name hname))
  · by_cases heq : e.name = u.name
    · -- the new device
      obtain rfl := List.inj_on_of_nodup_map hnames he hu heq
      have hhome' : update home e.name dev e.name = dev := update_self ..
      unfold Placed
      rw [hhome', hnew.name, hnew.nregs, hnew.bus, hparent]
      by_cases hbus : s.devFromName e.parent = 0
      · exact .inl ⟨rfl, .inl hbus⟩
      · by_cases hfront : t.Front dev
        · exact .inr ⟨hfront, rfl, h.devFromName_eq hbus, hdue.bus⟩
        · exact .inl ⟨rfl, .inr hfront⟩
    · have hhome' : update home u.name dev e.name = home e.name :=
        update_of_ne heq ..
      rw [hhome'] at hhome
      have hmem := h.listed _ hhome
      unfold Placed
      rw [hhome', hnew.others _ hmem]
      rcases h.place e he hhome with ⟨hname, hstays⟩ | ⟨hfront, hnregs, hbus, hparent'⟩
      · exact .inl ⟨hname, hstays.imp_right fun hnot hfront => hnot (hnew.front_of_front hmem hfront)⟩
      · rw [hgrows _ hparent']
        by_cases hfront' : t.Front (home e.name)
        · exact .inr ⟨hfront', hnregs, hbus, hparent'⟩
        · -- the new device took its place, so it is one of this pass and has one name only
          have halike : t.alike (home e.name) dev = true := by
            by_contra hnot
            rw [Bool.not_eq_true] at hnot
            exact hfront' ((hnew.front_iff hmem hnot).mpr hfront)
          simp only [Probe.alike, Bool.and_eq_true, decide_eq_true_eq, hnew.others _ hmem,
            hnew.nregs, hnew.bus] at halike
          have hbusne : s.devFromName u.parent ≠ 0 := by
            rw [halike.2, hbus]
            exact hparent'
          have hkind : (s.devs (home e.name)).bus = home u.parent :=
            halike.2.symm.trans (h.devFromName_eq hbusne)
          exact .inl ⟨hdue.fresh _ hmem halike.1.symm hkind e.name rfl, .inr hfront'⟩

theorem due_create (h : Homes b home s) (hdue : Due home s u) (hnew : NewDevice u s t dev)
    (hother : v.name ≠ u.name) (hv : Due home s v) : Due (update home u.name dev) t v := by
  have hgrows : Grows home (update home u.name dev) :=
    grows_update fun hhome => absurd hdue.absent hhome
  have hparent : update home u.name dev v.parent = home v.parent := hgrows _ hv.bus
  refine ⟨?_, ?_, fun d hd hnregs hbus name hname => ?_⟩
  · rw [update_of_ne hother]
    exact hv.absent
  · rw [hparent]
    exact hv.bus
  · rw [hparent] at hbus
    rcases hnew.mem_listed.mp hd with rfl | hd
    · by_cases heq : name = u.name
      · rw [heq]
        exact hnew.name
      · rw [update_of_ne heq] at hname
        have hlisted := h.listed name (hname ▸ hnew.nonnull)
        rw [hname] at hlisted
        exact absurd hlisted hnew.fresh
    · rw [hnew.others d hd] at hnregs hbus ⊢
      by_cases heq : name = u.name
      · rw [heq, update_self] at hname
        exact absurd (hname ▸ hd) hnew.fresh
      · rw [update_of_ne heq] at hname
        exact hv.fresh d hd hnregs hbus name hname

end Homes

/-! ### Passes -/

/-- Some driver takes the entry whenever it is offered. -/
def Board.Takes (b : Board) (e : DevtreeEntry) : Prop := ∀ n, (offer e b.drivers n).1 ≠ none

/-- The drivers do not change their mind: each entry is taken always or never. -/
def Board.Steady (b : Board) : Prop :=
  ∀ e ∈ b.devtree, b.Takes e ∨ ∀ n, (offer e b.drivers n).1 = none

/-- An entry discovered in this scan: there is no device of its kind. -/
structure Discovered (home : CString → Nat) (s : Probe) (u : DevtreeEntry) : Prop where
  absent : home u.name = 0
  bus : home u.parent ≠ 0
  none : ∀ d ∈ s.listed, (s.devs d).nregs = u.nregs → (s.devs d).bus ≠ home u.parent

theorem Discovered.due {home : CString → Nat} {s : Probe} {u : DevtreeEntry}
    (h : Discovered home s u) : Due home s u :=
  ⟨h.absent, h.bus, fun d hd hnregs hbus => absurd hbus (h.none d hd hnregs)⟩

/-- During the scan, behind the entries `done`. -/
structure Scanning (b : Board) (done : List DevtreeEntry) (home : CString → Nat) (s : Probe) :
    Prop where
  homes : Homes b home s
  nodup : s.undriven.Nodup
  entries : ∀ u ∈ s.undriven, u ∈ b.devtree
  waiting : ∀ u ∈ s.undriven, b.Takes u → u ∈ done ∧ Discovered home s u

namespace Scanning

variable {b : Board} {home : CString → Nat} {s s' : Probe} {e : DevtreeEntry}
  {done es : List DevtreeEntry} (hnames : (b.devtree.map DevtreeEntry.name).Nodup)

include hnames

theorem scanEntry (h : Scanning b done home s) (he : e ∈ b.devtree) (hnew : e ∉ done)
    (hscan : s.scanEntry e = .ok s') :
    ∃ home', Grows home home' ∧ Scanning b (done ++ [e]) home' s' := by
  have hdone {u : DevtreeEntry} (hu : u ∈ done) : u ∈ done ++ [e] := List.mem_append_left _ hu
  rcases Probe.scanEntry_cases h.homes.nonnull hscan with
    rfl | ⟨habsent, hbus, hdup, rfl⟩ | ⟨habsent, hbus, hdup, hu, rfl⟩
  · refine ⟨home, fun _ _ => rfl, h.homes, h.nodup, h.entries, fun u hu htakes => ?_⟩
    obtain ⟨hmem, hdisc⟩ := h.waiting u hu htakes
    exact ⟨hdone hmem, hdisc⟩
  · obtain ⟨hhomes, hgrows⟩ := h.homes.rename hnames he habsent hbus hdup
    refine ⟨_, hgrows, hhomes, h.nodup, h.entries, fun u hu htakes => ?_⟩
    obtain ⟨hmem, hdisc⟩ := h.waiting u hu htakes
    have hother : u.name ≠ e.name := by
      intro heq
      obtain rfl := List.inj_on_of_nodup_map hnames (h.entries u hu) he heq
      exact hnew hmem
    have hparent := hgrows _ hdisc.bus
    refine ⟨hdone hmem, ?_, ?_, fun d hd => ?_⟩
    · rw [update_of_ne hother]
      exact hdisc.absent
    · rw [hparent]
      exact hdisc.bus
    · rw [hparent, Probe.rename_nregs, Probe.rename_bus]
      exact hdisc.none d hd
  · refine ⟨home, fun _ _ => rfl, h.homes.withUndriven _, ?_, fun v hv => ?_, fun v hv htakes => ?_⟩
    · exact List.nodup_append'.mpr
        ⟨h.nodup, List.nodup_singleton e, List.disjoint_singleton.mpr hu⟩
    · rcases List.mem_append.mp hv with hv | hv
      · exact h.entries v hv
      · rw [List.mem_singleton.mp hv]
        exact he
    · rcases List.mem_append.mp hv with hv | hv
      · obtain ⟨hmem, hdisc⟩ := h.waiting v hv htakes
        exact ⟨hdone hmem, hdisc.absent, hdisc.bus, hdisc.none⟩
      · rw [List.mem_singleton.mp hv]
        have hparent := h.homes.devFromName_eq hbus
        refine ⟨by simp, h.homes.home_eq_zero he habsent hbus hdup, hparent ▸ hbus, ?_⟩
        intro d hd hnregs hdbus
        refine (Probe.checkDupDevice_ne_zero h.homes.nonnull).mpr ⟨d, hd, ?_⟩ hdup
        simp only [Probe.devMatch, Bool.and_eq_true, decide_eq_true_eq]
        exact ⟨hnregs, hdbus.trans hparent.symm⟩

theorem scan (h : Scanning b done home s) (hes : b.devtree = done ++ es)
    (hscan : es.foldlM Probe.scanEntry s = .ok s') :
    ∃ home', Grows home home' ∧ Scanning b b.devtree home' s' := by
  induction es generalizing s done home with
  | nil =>
    obtain rfl : s = s' := Except.ok.inj hscan
    rw [List.append_nil] at hes
    rw [hes]
    exact ⟨home, fun _ _ => rfl, h⟩
  | cons e es ih =>
    rw [List.foldlM_cons] at hscan
    have hnew : e ∉ done := by
      have hnodup : (done ++ e :: es).Nodup := hes ▸ hnames.of_map
      exact fun hmem => (List.nodup_append.mp hnodup).2.2 e hmem e List.mem_cons_self rfl
    cases hstep : s.scanEntry e with
    | error err =>
      rw [hstep] at hscan
      cases hscan
    | ok s1 =>
      rw [hstep] at hscan
      have he : e ∈ b.devtree := by
        rw [hes]
        exact List.mem_append_right _ List.mem_cons_self
      obtain ⟨home1, hgrows, h1⟩ := h.scanEntry hnames he hnew hstep
      rw [List.append_cons] at hes
      obtain ⟨home', hgrows', h'⟩ := ih h1 hes hscan
      refine ⟨home', fun name hname => ?_, h'⟩
      have hsame := hgrows name hname
      rw [hgrows' name (hsame ▸ hname), hsame]

end Scanning

/-- While the drivers are offered the entries `us`: what was picked up has a home. -/
structure Picking (b : Board) (home : CString → Nat) (us : List DevtreeEntry) (s : Probing) :
    Prop where
  homes : Homes b home s.probe
  nodup : us.Nodup
  entries : ∀ u ∈ us, u ∈ b.devtree
  due : ∀ u ∈ us, b.Takes u → Due home s.probe u
  picked : ∀ e ∈ s.picked, home e.name ≠ 0
  once : s.picked.Nodup

/-- Between two passes, no entry on the list of undriven entries is taken. -/
structure Rested (b : Board) (home : CString → Nat) (us : List DevtreeEntry) (s : Probing) :
    Prop extends Picking b home us s where
  refused : ∀ u ∈ us, ¬ b.Takes u

section Pass

variable {b : Board} (hnames : (b.devtree.map DevtreeEntry.name).Nodup) (hsteady : b.Steady)

include hnames hsteady

theorem Picking.pickUp {home : CString → Nat} {us : List DevtreeEntry} {s : Probing}
    (h : Picking b home us s) :
    ∃ home', Rested b home' (s.pickUp b us).2.1 (s.pickUp b us).2.2 ∧ (s.pickUp b us).2.1 ⊆ us := by
  induction us generalizing s home with
  | nil => exact ⟨home, ⟨h, fun u hu => absurd hu List.not_mem_nil⟩, fun _ hu => hu⟩
  | cons u us ih =>
    obtain ⟨hnotMem, hnodup⟩ := List.nodup_cons.mp h.nodup
    have hu := h.entries u List.mem_cons_self
    have hrest {v : DevtreeEntry} (hv : v ∈ us) : v ∈ u :: us := List.mem_cons_of_mem u hv
    cases hoffer : offer u b.drivers s.calls with
    | mk answer calls =>
      cases answer with
      | none =>
        rw [Probing.pickUp_refused us hoffer]
        obtain ⟨home', hrested, hsub⟩ := ih (s := { s with calls := calls })
          ⟨h.homes, hnodup, fun v hv => h.entries v (hrest hv),
            fun v hv => h.due v (hrest hv), h.picked, h.once⟩
        have hrefused : ¬ b.Takes u := fun htakes => htakes s.calls (by rw [hoffer])
        refine ⟨home', ⟨⟨hrested.homes, ?_, ?_, ?_, hrested.picked, hrested.once⟩, ?_⟩, ?_⟩
        · exact List.nodup_cons.mpr ⟨fun hmem => hnotMem (hsub hmem), hrested.nodup⟩
        · exact List.forall_mem_cons.mpr ⟨hu, hrested.entries⟩
        · exact List.forall_mem_cons.mpr ⟨fun htakes => absurd htakes hrefused, hrested.due⟩
        · exact List.forall_mem_cons.mpr ⟨hrefused, hrested.refused⟩
        · exact List.cons_subset_cons u hsub
      | some devno =>
        have htakes : b.Takes u := by
          rcases hsteady u hu with htakes | hnever
          · exact htakes
          · have hnone := hnever s.calls
            rw [hoffer] at hnone
            cases hnone
        have hdue := h.due u List.mem_cons_self htakes
        obtain ⟨dev, hnew⟩ := b.create_spec devno u s.probe
        obtain ⟨hhomes, hgrows⟩ := h.homes.create hnames hu hdue hnew
        have hnext : Picking b (update home u.name dev) us
            ⟨b.create devno u s.probe, calls, s.picked ++ [u]⟩ := by
          refine ⟨hhomes, hnodup, fun v hv => h.entries v (hrest hv), fun v hv hv' => ?_,
            fun e he => ?_, ?_⟩
          · have hother : v.name ≠ u.name := by
              intro heq
              obtain rfl := List.inj_on_of_nodup_map hnames (h.entries v (hrest hv)) hu heq
              exact hnotMem hv
            exact h.homes.due_create hdue hnew hother (h.due v (hrest hv) hv')
          · rcases List.mem_append.mp he with he | he
            · rw [hgrows _ (h.picked e he)]
              exact h.picked e he
            · rw [List.mem_singleton.mp he, update_self]
              exact hnew.nonnull
          · refine List.nodup_append'.mpr
              ⟨h.once, List.nodup_singleton u, List.disjoint_singleton.mpr fun hmem => ?_⟩
            exact h.picked u hmem hdue.absent
        obtain ⟨home', hrested, hsub⟩ := ih hnext
        rw [Probing.pickUp_taken us hoffer]
        exact ⟨home', hrested, fun v hv => hrest (hsub hv)⟩

theorem Rested.pass {home : CString → Nat} {s t : Probing} {found : Bool}
    (h : Rested b home s.probe.undriven s) (hpass : s.pass b = .ok (found, t)) :
    ∃ home', Rested b home' t.probe.undriven t := by
  unfold Probing.pass at hpass
  cases hscan : b.devtree.foldlM Probe.scanEntry s.probe with
  | error e =>
    rw [hscan] at hpass
    cases hpass
  | ok probe =>
    rw [hscan] at hpass
    have hstart : Scanning b [] home s.probe :=
      ⟨h.homes, h.nodup, h.entries, fun u hu htakes => absurd htakes (h.refused u hu)⟩
    obtain ⟨home1, hgrows, hscanned⟩ := hstart.scan hnames (List.nil_append _).symm hscan
    have hpicking : Picking b home1 probe.undriven { s with probe := probe } := by
      refine ⟨hscanned.homes, hscanned.nodup, hscanned.entries,
        fun u hu htakes => (hscanned.waiting u hu htakes).2.due, fun e he => ?_, h.once⟩
      rw [hgrows _ (h.picked e he)]
      exact h.picked e he
    obtain ⟨home', hrested, _⟩ := hpicking.pickUp hnames hsteady
    cases hpass
    exact ⟨home', ⟨⟨hrested.homes.withUndriven _, hrested.nodup, hrested.entries,
      fun u hu htakes => absurd htakes (hrested.refused u hu), hrested.picked, hrested.once⟩,
      hrested.refused⟩⟩

end Pass

/-- The states between two passes, also of several calls of `probe_devices`. -/
inductive Probing.Reached (b : Board) (s : Probing) : Probing → Prop
  | start : Reached b s s
  | pass {t u : Probing} {found : Bool} (ht : Reached b s t) (hpass : t.pass b = .ok (found, u)) :
      Reached b s u

/-- The state after `n` passes. -/
def Probing.passes (b : Board) : Nat → Probing → Except ProbeFault Probing
  | 0, s => .ok s
  | n + 1, s =>
    match s.pass b with
    | .error e => .error e
    | .ok (_, t) => t.passes b n

theorem Probing.Reached.passes {b : Board} {s t u : Probing} {n : Nat} (ht : s.Reached b t)
    (h : t.passes b n = .ok u) : s.Reached b u := by
  induction n generalizing t with
  | zero =>
    obtain rfl : t = u := Except.ok.inj h
    exact ht
  | succ n ih =>
    rw [Probing.passes] at h
    cases hpass : t.pass b with
    | error e =>
      rw [hpass] at h
      cases h
    | ok r =>
      rw [hpass] at h
      exact ih (ht.pass hpass) h

/-- What was picked up in `n` passes. -/
def Probing.pickedAfter (b : Board) (n : Nat) (s : Probing) : List DevtreeEntry :=
  match s.passes b n with
  | .error _ => []
  | .ok t => t.picked

theorem Probing.exists_reached {b : Board} {s : Probing} {n : Nat}
    (h : ¬ (s.pickedAfter b n).Nodup) : ∃ t, s.Reached b t ∧ ¬ t.picked.Nodup := by
  unfold pickedAfter at h
  cases hpasses : s.passes b n with
  | error e =>
    rw [hpasses] at h
    exact absurd .nil h
  | ok t =>
    rw [hpasses] at h
    exact ⟨t, Reached.start.passes hpasses, h⟩

theorem Probing.Start.rested {s : Probing} (h : s.Start) (b : Board) :
    Rested b s.probe.devFromName s.probe.undriven s := by
  have hown : ∀ d ∈ s.probe.listed, s.probe.devFromName (s.probe.devs d).name = d :=
    fun d hd => Probe.devFromName_eq h.unique hd rfl
  have hlisted {name : CString} (hname : s.probe.devFromName name ≠ 0) :
      s.probe.devFromName name ∈ s.probe.listed ∧
        (s.probe.devs (s.probe.devFromName name)).name = name := by
    have hnamed : s.probe.Named name := by
      by_contra habsent
      exact hname ((Probe.devFromName_eq_zero h.nonnull).mpr habsent)
    obtain ⟨d, hd, rfl⟩ := hnamed
    rw [hown d hd]
    exact ⟨hd, rfl⟩
  have hhomes : Homes b s.probe.devFromName s.probe := by
    refine ⟨h.nonnull, hown, fun name hname => (hlisted hname).1, fun e _ hhome => ?_⟩
    exact .inl ⟨(hlisted hhome).2, .inl (h.roots _ (hlisted hhome).1)⟩
  rw [h.undriven]
  refine ⟨⟨hhomes, .nil, ?_, ?_, ?_, ?_⟩, ?_⟩
  · exact fun u hu => absurd hu List.not_mem_nil
  · exact fun u hu => absurd hu List.not_mem_nil
  · intro e he
    rw [h.picked] at he
    exact absurd he List.not_mem_nil
  · rw [h.picked]
    exact .nil
  · exact fun u hu => absurd hu List.not_mem_nil

/-- Device probing ends, for every tree and whatever the drivers answer. No entry is picked
up twice as long as the entries have names of their own and the drivers do not change
their mind about an entry. -/
theorem probe_devices_stops {s : Probing} (hstart : s.Start) (b : Board) :
    (∃ fuel r, s.run b fuel = some r) ∧
      ((b.devtree.map DevtreeEntry.name).Nodup → b.Steady →
        ∀ t, s.Reached b t → t.picked.Nodup) := by
  refine ⟨hstart.stops b, fun hnames hsteady t ht => ?_⟩
  have hrested : ∃ home, Rested b home t.probe.undriven t := by
    induction ht with
    | start => exact ⟨_, hstart.rested b⟩
    | pass _ hpass ih =>
      obtain ⟨home, hrested⟩ := ih
      exact hrested.pass hnames hsteady hpass
  obtain ⟨home, hrested⟩ := hrested
  exact hrested.once

/-- Drivers that accept an entry always or never do not change their mind. -/
theorem Platform.board_steady (pf : Platform) : pf.board.Steady := by
  intro e _
  have hoffer (n : Nat) : (offer e pf.board.drivers n).1 =
      (pf.drivers.find? fun drv => drv.accepts e).map fun drv => drv.devno e :=
    Probing.offer_board e pf.drivers n
  cases hfind : pf.drivers.find? fun drv => drv.accepts e with
  | none =>
    refine .inr fun n => ?_
    rw [hoffer n, hfind]
    rfl
  | some drv =>
    refine .inl fun n => ?_
    rw [hoffer n, hfind]
    exact Option.some_ne_none _

/-! ### Boards -/

namespace Probing

/-- The port bus is registered. -/
def portStart : Probing := ⟨Probe.portOnly, 0, []⟩

theorem portStart_start : portStart.Start := by
  refine ⟨by decide, by decide, fun d hd d' hd' _ => ?_, by decide, rfl, rfl⟩
  exact (List.mem_singleton.mp hd).trans (List.mem_singleton.mp hd').symm

/-- With a driver for the two controllers. -/
theorem probe_devices_stops_controllers :
    (∃ fuel r, portStart.run (Probe.controllers fun _ => true).board fuel = some r) ∧
      ∀ t, portStart.Reached (Probe.controllers fun _ => true).board t → t.picked.Nodup := by
  obtain ⟨hstops, honce⟩ := probe_devices_stops portStart_start (Probe.controllers fun _ => true).board
  have hnames : ((Probe.controllers fun _ => true).board.devtree.map DevtreeEntry.name).Nodup :=
    (Probe.controllers_setup fun _ => true).names
  exact ⟨hstops, honce hnames (Platform.board_steady _)⟩

/-- A name of one letter. -/
def letter (c : Char) (h : 0 ∉ [UInt8.ofNat c.toNat]) : CString := ⟨[UInt8.ofNat c.toNat], h⟩

/-- An entry with registers at `reg`. -/
def node (c : Char) (parent : CString) (nregs reg : Nat) (h : 0 ∉ [UInt8.ofNat c.toNat]) :
    DevtreeEntry where
  name := letter c h
  model := letter c h
  parent := parent
  nregs := nregs
  regs := List.replicate nregs reg
  fits := by
    show 1 < 64
    decide

/-- A hub on the port bus. -/
def hub : DevtreeEntry := node 'a' Probe.portName 1 0x10 (by decide)

/-- Another one; the driver runs out of memory for it in its first four calls. -/
def lateHub : DevtreeEntry := node 'b' Probe.portName 1 0x20 (by decide)

/-- A device on the first hub without a driver. -/
def leaf : DevtreeEntry := node 'c' (letter 'a' (by decide)) 1 0x11 (by decide)

/-- A device on the other hub. -/
def lateLeaf : DevtreeEntry := node 'd' (letter 'b' (by decide)) 1 0x21 (by decide)

/-- Two hubs with a device each. -/
def lateBoard : Board where
  devtree := [hub, lateHub, leaf, lateLeaf]
  drivers := [fun n e =>
    if e = hub ∨ e = lateLeaf ∨ e = lateHub ∧ n ≥ 4 then some 0 else none]
  heap := Probe.topHeap

/-- Two hubs of one name, with a device below and other devices next to them. -/
def twins : List DevtreeEntry :=
  [node 'z' (letter 'a' (by decide)) 1 0x10 (by decide),
    node 'x' Probe.portName 2 0x20 (by decide),
    node 'a' Probe.portName 1 0x30 (by decide),
    node 'c' (letter 'a' (by decide)) 1 0x40 (by decide),
    node 'y' Probe.portName 1 0x50 (by decide),
    node 'a' Probe.portName 2 0x60 (by decide)]

/-- A driver for the hubs and the device below. -/
def twinPlatform : Platform :=
  ⟨twins, [⟨fun e => e.name = letter 'a' (by decide) || e.name = letter 'c' (by decide),
    fun _ => 0⟩], Probe.topHeap⟩

/-- An entry is picked up twice after a driver changed its mind, although all names are
different and probing ends well; and one is picked up twice where two entries have one
name, although the drivers do not change their mind. -/
theorem probe_devices_picks_twice :
    ((lateBoard.devtree.map DevtreeEntry.name).Nodup ∧
      ∃ t, portStart.run lateBoard 8 = some (.ok t) ∧
        t.picked = [hub, lateLeaf, lateHub, lateLeaf]) ∧
    (twinPlatform.board.Steady ∧
      ∃ t, portStart.Reached twinPlatform.board t ∧ ¬ t.picked.Nodup) := by
  refine ⟨⟨by decide, _, rfl, by decide⟩, twinPlatform.board_steady, ?_⟩
  exact exists_reached (n := 3) (by decide +kernel)

end Probing

end AimKernel
