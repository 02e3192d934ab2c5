import AimKernel.Lib.CString
import AimKernel.Lib.Ring
import AimKernel.Lib.StableOrder
import Mathlib.Logic.Relation

/-!
# AimKernel.Dev.DevList

The device index `devlist.c`: a ring of entries, each pointing to a device, in ascending
order of device number.

Entries and devices are addresses, `0` is `NULL`. The walks of the source are given
enough fuel for the length of the list. `Registry` adds to the index the devices that
have been added and not removed, oldest first; the list is that collection in the stable
order of device numbers (`Registry.Inv`), and every function of the index is described
on the collection.

Devices themselves may change between the calls (drivers rename them, for instance), as
long as the number and the bus of a registered device stay.
-/

namespace AimKernel

/-- `DEV_NAME_MAX`. -/
def devNameMax : Nat := 64

/-- `EOF`. -/
def eof : Int := -1

/-- `struct device`. `bus` is the pointer to the bus the device is attached to; a
`struct bus_device` starts with its `struct device`, so that the two have one
address. -/
structure Device where
  name : CString
  devno : Nat
  bus : Nat
  bases : List Nat
  nregs : Int

/-- The list of `devlist.c`: the links, the `dev` fields of the entries, and the devices. -/
structure DevIndex where
  ring : Ring Nat
  dev : Nat → Nat
  devs : Nat → Device

namespace DevIndex

/-- `__cmp`. -/
def cmp (s : DevIndex) (a b : Nat) : Int :=
  let devA := s.devs (s.dev a)
  let devB := s.devs (s.dev b)
  if devA.devno > devB.devno then 1 else if devA.devno < devB.devno then -1 else 0

/-- `__add`, with `this` the answer of its `kmalloc`. -/
def add (fuel this dev : Nat) (s : DevIndex) : Option (Int × DevIndex) :=
  if this = 0 then some (eof, s)
  else
    let s := { s with dev := Function.update s.dev this dev }
    match s.ring.forEach (fun tmp => s.cmp tmp this > 0) fuel (s.ring.next .head) with
    | none => none
    | some tmp => some (0, { s with ring := s.ring.listAddBefore (.node this) tmp })

/-- How the walk of `__remove` ends. -/
inductive RemoveScan
  /-- A device is connected to the one to remove. -/
  | connected
  /-- The list was searched; `this` is the entry to remove, if there is one. -/
  | searched (this : Option Nat)
  deriving Repr, DecidableEq

/-- The walk of `__remove` from `tmp` on. -/
def removeScan (dev : Nat) (s : DevIndex) : Nat → Hook Nat → Option Nat → Option RemoveScan
  | 0, _, _ => none
  | _ + 1, .head, this => some (.searched this)
  | fuel + 1, .node tmp, this =>
    if (s.devs (s.dev tmp)).bus = dev then some .connected
    else
      removeScan dev s fuel (s.ring.next (.node tmp))
        (if s.dev tmp = dev then some tmp else this)

/-- `__remove`. -/
def remove (fuel dev : Nat) (s : DevIndex) : Option (Int × DevIndex) :=
  match s.removeScan dev fuel (s.ring.next .head) none with
  | none => none
  | some .connected => some (eof, s)
  | some (.searched none) => some (eof, s)
  | some (.searched (some this)) => some (0, { s with ring := s.ring.listDel (.node this) })

/-- The end of the two look-ups: the device of the entry the walk stopped at. -/
def deviceAt (s : DevIndex) : Hook Nat → Nat
  | .head => 0
  | .node tmp => s.dev tmp

/-- `__from_id`. -/
def fromId (fuel devno : Nat) (s : DevIndex) : Option Nat :=
  (s.ring.forEach (fun tmp => (s.devs (s.dev tmp)).devno = devno) fuel (s.ring.next .head)).map
    s.deviceAt

/-- `__from_name`. -/
def fromName (fuel : Nat) (name : CString) (s : DevIndex) : Option Nat :=
  (s.ring.forEach (fun tmp => (s.devs (s.dev tmp)).name.strcmp name = 0) fuel
    (s.ring.next .head)).map s.deviceAt

/-- The list holds the devices `ds`, in this order. -/
def Lists (s : DevIndex) (ds : List Nat) : Prop := ∃ es, s.ring.Holds es ∧ es.map s.dev = ds

/-! ### The functions on the list of devices -/

variable {s : DevIndex} {es ds : List Nat} {fuel this d : Nat}

variable {p : Hook Nat} {k n : Nat} {res : Int × DevIndex}

theorem cmp_pos {a b : Nat} :
    s.cmp a b > 0 ↔ (s.devs (s.dev b)).devno < (s.devs (s.dev a)).devno := by
  unfold cmp
  dsimp only
  split
  case isTrue h => exact iff_of_true (by decide) h
  case isFalse h =>
    refine iff_of_false ?_ h
    split <;> decide

theorem forEach_device (h : s.ring.Holds es) (hfuel : es.length < fuel) (p : Nat → Bool) :
    (s.ring.forEach (fun tmp => p (s.dev tmp)) fuel (s.ring.next .head)).map s.deviceAt =
      some (((es.map s.dev).find? p).getD 0) := by
  rw [h.forEach_eq _ hfuel, Option.map_some]
  clear h hfuel
  induction es with
  | nil => rfl
  | cons e es ih =>
    by_cases hp : p (s.dev e) = true
    · simp [hp, Ring.firstHook, deviceAt]
    · rw [List.map_cons, List.find?_cons_of_neg hp, List.dropWhile_cons_of_pos (by simp [hp])]
      exact ih

theorem fromId_eq (h : s.Lists ds) (hfuel : ds.length < fuel) (n : Nat) :
    s.fromId fuel n = some ((ds.find? fun d => decide ((s.devs d).devno = n)).getD 0) := by
  obtain ⟨es, hes, rfl⟩ := h
  exact forEach_device hes (by simpa using hfuel) fun d => decide ((s.devs d).devno = n)

theorem fromName_eq (h : s.Lists ds) (hfuel : ds.length < fuel) (name : CString) :
    s.fromName fuel name = some ((ds.find? fun d => decide ((s.devs d).name = name)).getD 0) := by
  obtain ⟨es, hes, rfl⟩ := h
  have hwalk := forEach_device hes (by simpa using hfuel) fun d => decide ((s.devs d).name = name)
  simpa only [fromName, CString.strcmp_eq_zero] using hwalk

/-- `__add` inserts behind the devices whose number is not larger. -/
theorem add_spec (h : s.ring.Holds es) (hfuel : es.length < fuel) (hthis : this ≠ 0)
    (hfresh : this ∉ es) :
    ∃ s', s.add fuel this d = some (0, s') ∧ s'.devs = s.devs ∧
      s'.Lists (((es.map s.dev).takeWhile fun x => !decide ((s.devs d).devno < (s.devs x).devno)) ++
        d :: (es.map s.dev).dropWhile fun x => !decide ((s.devs d).devno < (s.devs x).devno)) := by
  set p : Nat → Bool := fun x => !decide ((s.devs d).devno < (s.devs x).devno) with hp
  let s1 : DevIndex := { s with dev := Function.update s.dev this d }
  have hmap : es.map s1.dev = es.map s.dev := by
    refine List.map_congr_left fun e he => Function.update_of_ne ?_ d s.dev
    rintro rfl
    exact hfresh he
  have hthis1 : s1.dev this = d := Function.update_self ..
  have hcmp : (fun tmp => !decide (s1.cmp tmp this > 0)) = p ∘ s1.dev := by
    funext tmp
    have hiff : s1.cmp tmp this > 0 ↔ (s.devs d).devno < (s.devs (s1.dev tmp)).devno := by
      rw [cmp_pos, hthis1]
    simp only [hiff, hp, Function.comp]
  have hwalk := h.forEach_eq (fun tmp => decide (s1.cmp tmp this > 0)) hfuel
  rw [hcmp] at hwalk
  let pos := Ring.firstHook (es.dropWhile (p ∘ s1.dev))
  refine ⟨{ s1 with ring := s.ring.listAddBefore (.node this) pos }, ?_, rfl, ?_⟩
  · rw [add, if_neg hthis]
    dsimp only
    rw [hwalk]
  · have hsplit : es.takeWhile (p ∘ s1.dev) ++ es.dropWhile (p ∘ s1.dev) = es :=
      List.takeWhile_append_dropWhile
    refine ⟨es.takeWhile (p ∘ s1.dev) ++ this :: es.dropWhile (p ∘ s1.dev), ?_, ?_⟩
    · refine Ring.Holds.listAddBefore ?_ ?_
      · rw [hsplit]
        exact h
      · rw [hsplit]
        exact hfresh
    · show List.map s1.dev _ = _
      rw [List.map_append, List.map_cons, hthis1, ← List.takeWhile_map, ← List.dropWhile_map,
        hmap]

/-- What the walk of `__remove` finds, if no two entries have one device. -/
theorem removeScan_eq (hchain : Chained s.ring.openNext p.asPrev es) (hfuel : es.length < fuel)
    (hnd : (es.map s.dev).Nodup) (this : Option Nat) :
    s.removeScan d fuel (s.ring.next p) this =
      some (if ∃ c ∈ es.map s.dev, (s.devs c).bus = d then .connected
        else .searched ((es.find? fun e => decide (s.dev e = d)).or this)) := by
  induction es generalizing p fuel this with
  | nil =>
    have hnext : s.ring.next p = .head := by
      apply Hook.asNext_injective
      rw [← Ring.openNext_asPrev]
      exact hchain
    obtain ⟨n, rfl⟩ : ∃ n, fuel = n + 1 := ⟨fuel - 1, by simp at hfuel; omega⟩
    rw [hnext]
    simp [removeScan]
  | cons e es ih =>
    obtain ⟨he, hrest⟩ := hchain
    have hnext : s.ring.next p = .node e := by
      apply Hook.asNext_injective
      rw [← Ring.openNext_asPrev]
      exact he
    obtain ⟨n, rfl⟩ : ∃ n, fuel = n + 1 := ⟨fuel - 1, by simp at hfuel; omega⟩
    rw [List.map_cons, List.nodup_cons] at hnd
    rw [hnext, removeScan]
    by_cases hbus : (s.devs (s.dev e)).bus = d
    · rw [if_pos hbus, if_pos ⟨s.dev e, by simp, hbus⟩]
    · rw [if_neg hbus, ih (p := .node e) hrest (by simp at hfuel; omega) hnd.2]
      have hconn : (∃ c ∈ (e :: es).map s.dev, (s.devs c).bus = d) ↔
          ∃ c ∈ es.map s.dev, (s.devs c).bus = d := by
        simp [hbus]
      simp only [hconn]
      by_cases hd : s.dev e = d
      · -- no later entry has the device
        have hnone : (es.find? fun e => decide (s.dev e = d)) = none := by
          rw [List.find?_eq_none]
          intro e' he' heq
          refine hnd.1 (List.mem_map.mpr ⟨e', he', ?_⟩)
          rw [hd]
          simpa using heq
        simp [hd, hnone]
      · simp [hd]

/-- `__remove` takes out a registered device to which none is connected, and does nothing
otherwise. -/
theorem remove_spec (h : s.Lists ds) (hnd : ds.Nodup) (hfuel : ds.length < fuel) (d : Nat) :
    (d ∈ ds → (∀ c ∈ ds, (s.devs c).bus ≠ d) →
      ∃ s', s.remove fuel d = some (0, s') ∧ s'.devs = s.devs ∧ s'.Lists (ds.erase d)) ∧
    (¬ (d ∈ ds ∧ ∀ c ∈ ds, (s.devs c).bus ≠ d) → s.remove fuel d = some (eof, s)) := by
  obtain ⟨es, hes, rfl⟩ := h
  have hscan := removeScan_eq (p := .head) (d := d) hes.linked.chained
    (by simpa using hfuel) hnd none
  refine ⟨?_, ?_⟩
  · intro hmem hbus
    have hconn : ¬ ∃ c ∈ es.map s.dev, (s.devs c).bus = d := by
      rintro ⟨c, hc, heq⟩
      exact hbus c hc heq
    obtain ⟨e, he, rfl⟩ := List.mem_map.mp hmem
    have hfind : (es.find? fun e' => decide (s.dev e' = s.dev e)) = some e := by
      cases hcase : es.find? fun e' => decide (s.dev e' = s.dev e) with
      | none => exact absurd (List.find?_eq_none.mp hcase e he) (by simp)
      | some e' =>
        have heq : s.dev e' = s.dev e := by simpa using List.find?_some hcase
        rw [List.inj_on_of_nodup_map hnd (List.mem_of_find?_eq_some hcase) he heq]
    rw [if_neg hconn, hfind] at hscan
    obtain ⟨l, q, rfl⟩ := List.append_of_mem he
    refine ⟨{ s with ring := s.ring.listDel (.node e) }, ?_, rfl, l ++ q, hes.listDel, ?_⟩
    · rw [remove, hscan]
      rfl
    · show (l ++ q).map s.dev = ((l ++ e :: q).map s.dev).erase (s.dev e)
      simp only [List.map_append, List.map_cons] at hnd ⊢
      have hl : s.dev e ∉ l.map s.dev := fun hl =>
        (List.nodup_append.mp hnd).2.2 _ hl _ (by simp) rfl
      rw [List.erase_append_right _ hl, List.erase_cons_head]
  · intro hnot
    rw [remove, hscan]
    by_cases hconn : ∃ c ∈ es.map s.dev, (s.devs c).bus = d
    · rw [if_pos hconn]
    · have hmem : d ∉ es.map s.dev := fun hmem =>
        hnot ⟨hmem, fun c hc heq => hconn ⟨c, hc, heq⟩⟩
      have hfind : (es.find? fun e => decide (s.dev e = d)) = none := by
        rw [List.find?_eq_none]
        intro e he heq
        exact hmem (List.mem_map.mpr ⟨e, he, by simpa using heq⟩)
      rw [if_neg hconn, hfind]
      rfl

/-! More fuel does not change what a finished call did. -/

theorem removeScan_mono {this : Option Nat} {res : RemoveScan}
    (h : s.removeScan d n p this = some res) (hnk : n ≤ k) :
    s.removeScan d k p this = some res := by
  induction n generalizing k p this with
  | zero => cases h
  | succ n ih =>
    obtain ⟨m, rfl⟩ : ∃ m, k = m + 1 := ⟨k - 1, by omega⟩
    cases p with
    | head => exact h
    | node tmp =>
      rw [removeScan] at h ⊢
      split at h
      next hbus => rw [if_pos hbus]; exact h
      next hbus => rw [if_neg hbus]; exact ih h (by omega)

theorem remove_mono (h : s.remove n d = some res) (hnk : n ≤ k) : s.remove k d = some res := by
  unfold remove at h ⊢
  cases hscan : s.removeScan d n (s.ring.next .head) none with
  | none => rw [hscan] at h; cases h
  | some scan =>
    rw [hscan] at h
    rw [removeScan_mono hscan hnk]
    exact h

theorem add_mono (h : s.add n this d = some res) (hnk : n ≤ k) : s.add k this d = some res := by
  unfold add at h ⊢
  split at h
  next hthis => rw [if_pos hthis]; exact h
  next hthis =>
    rw [if_neg hthis]
    dsimp only at h ⊢
    split at h
    next => cases h
    next tmp hwalk =>
      rw [Ring.forEach_mono hwalk hnk]
      exact h

end DevIndex

/-! ### Runs -/

/-- The index, and the devices that have been added and not removed, oldest first. -/
structure Registry where
  index : DevIndex
  added : List Nat

namespace Registry

/-- The empty list `__head`, whatever the memory around it holds. -/
def boot (s : DevIndex) : Registry := ⟨{ s with ring := s.ring.listInit .head }, []⟩

/-- One call of the index, or a change to the devices. -/
inductive Step (reg : Registry) : Registry → Prop
  /-- `dev_add` of a device that is not registered; `kmalloc` returns an entry that is
  not in use. -/
  | add {fuel this d : Nat} {ret : Int} {index' : DevIndex} (hd : d ≠ 0) (hnew : d ∉ reg.added)
      (hthis : this ≠ 0) (hfresh : ∀ es, reg.index.ring.Holds es → this ∉ es)
      (h : reg.index.add fuel this d = some (ret, index')) :
      Step reg ⟨index', if ret = 0 then reg.added ++ [d] else reg.added⟩
  /-- `dev_remove` of any device. -/
  | remove {fuel d : Nat} {ret : Int} {index' : DevIndex}
      (h : reg.index.remove fuel d = some (ret, index')) :
      Step reg ⟨index', if ret = 0 then reg.added.erase d else reg.added⟩
  /-- Devices change; registered ones keep their number and bus. -/
  | write {devs' : Nat → Device}
      (h : ∀ d ∈ reg.added, (devs' d).devno = (reg.index.devs d).devno ∧
        (devs' d).bus = (reg.index.devs d).bus) :
      Step reg ⟨{ reg.index with devs := devs' }, reg.added⟩

/-- The key the list is ordered by. -/
def devno (reg : Registry) (d : Nat) : Nat := (reg.index.devs d).devno

/-- The list holds the registered devices in stable order. -/
structure Inv (reg : Registry) (ds : List Nat) : Prop where
  lists : reg.index.Lists ds
  sorted : StableSorted reg.devno reg.added ds
  nodup : reg.added.Nodup
  nonnull : 0 ∉ reg.added

variable {reg reg' : Registry} {ds : List Nat}

theorem Inv.nodup_list (h : reg.Inv ds) : ds.Nodup := h.sorted.perm.nodup_iff.mpr h.nodup

theorem boot_inv (s : DevIndex) : (boot s).Inv [] :=
  ⟨⟨[], Ring.holds_listInit s.ring, rfl⟩, .nil, .nil, by simp [boot]⟩

/-- `dev_add` puts a new device behind those whose number is not larger. -/
theorem Inv.add {this d fuel : Nat} (h : reg.Inv ds) (hd : d ≠ 0) (hnew : d ∉ reg.added)
    (hthis : this ≠ 0) (hfresh : ∀ es, reg.index.ring.Holds es → this ∉ es)
    (hfuel : ds.length < fuel) :
    ∃ index' ds', reg.index.add fuel this d = some (0, index') ∧
      Inv ⟨index', reg.added ++ [d]⟩ ds' := by
  obtain ⟨es, hes, rfl⟩ := h.lists
  obtain ⟨index', hrun, hdevs, hlists⟩ := DevIndex.add_spec (d := d) hes (by simpa using hfuel)
    hthis (hfresh es hes)
  refine ⟨index', _, hrun, hlists, ?_, ?_, ?_⟩
  · have hkey : devno ⟨index', reg.added ++ [d]⟩ = reg.devno := by
      funext x
      simp only [devno, hdevs]
    rw [hkey]
    exact h.sorted.insert
  · rw [List.nodup_append]
    refine ⟨h.nodup, List.nodup_singleton d, fun a ha b hb => ?_⟩
    rw [List.mem_singleton.mp hb]
    rintro rfl
    exact hnew ha
  · simp only [List.mem_append, List.mem_singleton, not_or]
    exact ⟨h.nonnull, fun heq => hd heq.symm⟩

theorem Inv.erase {d : Nat} {index' : DevIndex} (h : reg.Inv ds)
    (hdevs : index'.devs = reg.index.devs) (hlists : index'.Lists (ds.erase d)) :
    Inv ⟨index', reg.added.erase d⟩ (ds.erase d) := by
  refine ⟨hlists, ?_, h.nodup.erase d, fun h0 => h.nonnull (List.mem_of_mem_erase h0)⟩
  have hkey : devno ⟨index', reg.added.erase d⟩ = reg.devno := by
    funext x
    simp only [devno, hdevs]
  rw [hkey]
  exact h.sorted.erase h.nodup d

theorem Step.inv (hstep : Step reg reg') (h : reg.Inv ds) : ∃ ds', reg'.Inv ds' := by
  cases hstep with
  | @add fuel this d ret index' hd hnew hthis hfresh hrun =>
    obtain ⟨index'', ds', hrun', hinv⟩ := h.add hd hnew hthis hfresh
      (show ds.length < fuel + ds.length + 1 by omega)
    obtain ⟨rfl, rfl⟩ := Prod.mk.inj
      (Option.some.inj ((DevIndex.add_mono hrun (by omega)).symm.trans hrun'))
    exact ⟨ds', hinv⟩
  | @remove fuel d ret index' hrun =>
    have hrun' := DevIndex.remove_mono hrun (show fuel ≤ fuel + ds.length + 1 by omega)
    obtain ⟨hok, hno⟩ := DevIndex.remove_spec h.lists h.nodup_list
      (show ds.length < fuel + ds.length + 1 by omega) d
    by_cases hcond : d ∈ ds ∧ ∀ c ∈ ds, (reg.index.devs c).bus ≠ d
    · obtain ⟨index'', hrun'', hdevs, hlists⟩ := hok hcond.1 hcond.2
      obtain ⟨rfl, rfl⟩ := Prod.mk.inj (Option.some.inj (hrun'.symm.trans hrun''))
      exact ⟨_, h.erase hdevs hlists⟩
    · obtain ⟨rfl, rfl⟩ := Prod.mk.inj (Option.some.inj (hrun'.symm.trans (hno hcond)))
      exact ⟨ds, h⟩
  | @write devs' hsame =>
    refine ⟨ds, h.lists, h.sorted.congr fun d hd => ?_, h.nodup, h.nonnull⟩
    exact (hsame d hd).1

theorem run_inv {s : DevIndex} (h : Relation.ReflTransGen Step (boot s) reg) :
    ∃ ds, reg.Inv ds := by
  induction h with
  | refl => exact ⟨[], boot_inv s⟩
  | tail _ hstep ih =>
    obtain ⟨ds, hds⟩ := ih
    exact hstep.inv hds

/-- The device list refines a sorted collection. After any run the list holds exactly the
devices added and not removed, by number and then by age. `dev_from_id` finds the
oldest device with a number, `dev_from_name` some device with a name, and `NULL` if there
is none. `dev_remove` takes out exactly a registered device that is nobody's bus, and
fails without a change otherwise; `dev_add` of a new device succeeds. -/
theorem devlist_refines {s : DevIndex} (hrun : Relation.ReflTransGen Step (boot s) reg) :
    ∃ ds, reg.index.Lists ds ∧ ds.Perm reg.added ∧
      (ds.Pairwise fun a b => reg.devno a < reg.devno b ∨
        reg.devno a = reg.devno b ∧ Before reg.added a b) ∧
      (∀ n fuel, ds.length < fuel → reg.index.fromId fuel n =
        some ((reg.added.find? fun d => decide (reg.devno d = n)).getD 0)) ∧
      (∀ name fuel, ds.length < fuel → ∃ d, reg.index.fromName fuel name = some d ∧
        (d ≠ 0 ∧ d ∈ reg.added ∧ (reg.index.devs d).name = name ∨
          d = 0 ∧ ∀ c ∈ reg.added, (reg.index.devs c).name ≠ name)) ∧
      (∀ d fuel, ds.length < fuel →
        (d ∈ reg.added → (∀ c ∈ reg.added, (reg.index.devs c).bus ≠ d) →
          ∃ index', reg.index.remove fuel d = some (0, index') ∧ index'.Lists (ds.erase d)) ∧
        (¬ (d ∈ reg.added ∧ ∀ c ∈ reg.added, (reg.index.devs c).bus ≠ d) →
          reg.index.remove fuel d = some (eof, reg.index))) ∧
      (∀ d this fuel, d ≠ 0 → d ∉ reg.added → this ≠ 0 →
        (∀ es, reg.index.ring.Holds es → this ∉ es) → ds.length < fuel →
        ∃ index', reg.index.add fuel this d = some (0, index')) := by
  obtain ⟨ds, h⟩ := run_inv hrun
  refine ⟨ds, h.lists, h.sorted.perm, h.sorted.order, ?_, ?_, ?_, ?_⟩
  · intro n fuel hfuel
    rw [DevIndex.fromId_eq h.lists hfuel]
    exact congrArg (fun o => some (o.getD 0)) (h.sorted.find?_eq h.nodup n)
  · intro name fuel hfuel
    refine ⟨_, DevIndex.fromName_eq h.lists hfuel name, ?_⟩
    cases hfind : ds.find? fun d => decide ((reg.index.devs d).name = name) with
    | none =>
      refine .inr ⟨rfl, fun c hc hname => ?_⟩
      have hnot := List.find?_eq_none.mp hfind c (h.sorted.mem_iff.mpr hc)
      exact hnot (by simpa using hname)
    | some d =>
      have hmem := h.sorted.mem_iff.mp (List.mem_of_find?_eq_some hfind)
      refine .inl ⟨?_, hmem, by simpa using List.find?_some hfind⟩
      rintro rfl
      exact h.nonnull hmem
  · intro d fuel hfuel
    have hspec := DevIndex.remove_spec h.lists h.nodup_list hfuel d
    simp only [h.sorted.mem_iff] at hspec
    refine ⟨fun hd hbus => ?_, hspec.2⟩
    obtain ⟨index', hrem, -, hlists⟩ := hspec.1 hd hbus
    exact ⟨index', hrem, hlists⟩
  · intro d this fuel hd hnew hthis hfresh hfuel
    obtain ⟨index', -, hadd, -⟩ := h.add hd hnew hthis hfresh hfuel
    exact ⟨index', hadd⟩

/-- An index before the boot, with `dev` in memory that is not used yet. All devices have one
number. -/
def unused (dev : Nat) : DevIndex :=
  ⟨⟨fun _ => .head, fun _ => .head⟩, fun _ => dev, fun _ => ⟨⟨[], by simp⟩, 5, 0, [], 0⟩⟩

/-- After `dev_add` of one device, -/
def oneDevice : Registry where
  index := ⟨(boot (unused 0)).index.ring.listAddBefore (.node 0x10) .head,
    Function.update (unused 0).dev 0x10 0x200, (unused 0).devs⟩
  added := [0x200]

/-- and of another. -/
def twoDevices : Registry where
  index := ⟨oneDevice.index.ring.listAddBefore (.node 0x20) .head,
    Function.update oneDevice.index.dev 0x20 0x100, (unused 0).devs⟩
  added := [0x200, 0x100]

theorem boot_holds (s : DevIndex) : (boot s).index.ring.Holds [] := Ring.holds_listInit _

theorem oneDevice_holds : oneDevice.index.ring.Holds [0x10] :=
  (boot_holds _).listAddBefore (l := []) (by decide)

theorem twoDevices_holds : twoDevices.index.ring.Holds [0x10, 0x20] :=
  oneDevice_holds.listAddBefore (l := [0x10]) (by decide)

theorem twoDevices_run : Relation.ReflTransGen Step (boot (unused 0)) twoDevices := by
  have hstep₁ : Step (boot (unused 0)) oneDevice := by
    refine @Step.add _ 1 0x10 0x200 0 oneDevice.index (by decide) (by decide) (by decide) ?_ rfl
    intro es hes
    rw [hes.unique (boot_holds _)]
    decide
  have hstep₂ : Step oneDevice twoDevices := by
    refine @Step.add _ 2 0x20 0x100 0 twoDevices.index (by decide) (by decide) (by decide) ?_ rfl
    intro es hes
    rw [hes.unique oneDevice_holds]
    decide
  exact (Relation.ReflTransGen.single hstep₁).tail hstep₂

/-- Of two devices with one number the look-up finds the one that was added first. -/
theorem devlist_refines_two_devices :
    Relation.ReflTransGen Step (boot (unused 0)) twoDevices ∧
      twoDevices.added = [0x200, 0x100] ∧ twoDevices.index.fromId 3 5 = some 0x200 := by
  obtain ⟨ds, -, hperm, -, hid, -⟩ := devlist_refines twoDevices_run
  have hlen : ds.length < 3 := by
    rw [hperm.length_eq]
    decide
  exact ⟨twoDevices_run, rfl, hid 5 3 hlen⟩

end Registry

end AimKernel
