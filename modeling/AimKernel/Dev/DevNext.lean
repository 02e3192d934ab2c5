import AimKernel.Dev.DevList

/-!
# AimKernel.Dev.DevNext

The iterator `dev_next` of the device index, and `for_each_device`.

`*savep` is a pointer to a `struct device_entry`, computed from a pointer to its `node`
(`container_of`). It is modelled by the list pointer it was computed from; `entryAddr` is
its value. At the end of the list it is computed from `__head`, which is not part of an
entry: it points `nodeOffset` bytes in front of `__head`, and the test
`*savep == &__head` misses it. `dev` is then read from the word in front of `__head`.

Every call but the last of an iteration is right (`dev_next_visits`).
-/

namespace AimKernel

/-- The offset of `node` in `struct device_entry`, behind the pointer `dev`. -/
def nodeOffset : Nat := 4

/-- The address of the entry computed from a list pointer, with `__head` at `head`. -/
def entryAddr (head : Nat) : Hook Nat → Nat
  | .head => head - nodeOffset
  | .node e => e

namespace DevIndex

/-- The end of `__next`: the test for the end of the list, and the device of the entry. -/
def entryDevice (head : Nat) (savep : Hook Nat) (s : DevIndex) : Nat :=
  if entryAddr head savep = head then 0 else s.dev (entryAddr head savep)

/-- `dev_next`: the device and `*savep` afterwards. `none` is the failed assertion. -/
def devNext (head dev : Nat) (savep : Hook Nat) (s : DevIndex) : Option (Nat × Hook Nat) :=
  if dev = 0 then
    let savep := s.ring.next .head
    some (s.entryDevice head savep, savep)
  else if s.dev (entryAddr head savep) = dev then
    let savep := s.ring.next savep
    some (s.entryDevice head savep, savep)
  else none

/-- The calls of `for_each_device`: `dev_next(NULL, &savep)`, then `dev_next` with the
result of the call before. `savep` starts with any value. -/
def visit (head : Nat) (savep : Hook Nat) (s : DevIndex) : Nat → Option (Nat × Hook Nat)
  | 0 => s.devNext head 0 savep
  | k + 1 =>
    match s.visit head savep k with
    | some (dev, savep) => s.devNext head dev savep
    | none => none

/-- The call read the `dev` of an entry computed from the list head. -/
def ReadsHead (head : Nat) (savep : Hook Nat) : Prop :=
  savep = .head ∧ entryAddr head savep ≠ head

/-- The entry computed from the list head is not recognised. -/
theorem readsHead_head {head : Nat} (hhead : nodeOffset ≤ head) : ReadsHead head .head := by
  have hne : head - nodeOffset ≠ head := by
    unfold nodeOffset at *
    omega
  exact ⟨rfl, hne⟩

variable {s : DevIndex} {es : List Nat} {head : Nat}

theorem entryDevice_node {e : Nat} (h : e ≠ head) : s.entryDevice head (.node e) = s.dev e :=
  if_neg h

/-- The call after `k` devices computes its entry from the next list pointer. -/
theorem visit_eq (hes : s.ring.Holds es) (hplaced : head ∉ es) (hnull : 0 ∉ es.map s.dev)
    (savep : Hook Nat) {k : Nat} (hk : k ≤ es.length) :
    s.visit head savep k =
      some (s.entryDevice head (Ring.firstHook (es.drop k)), Ring.firstHook (es.drop k)) := by
  induction k with
  | zero =>
    have hfirst : s.ring.next .head = Ring.firstHook es := Ring.Holds.next_lastHook (l := []) hes
    simp only [visit, devNext, if_pos, hfirst, List.drop_zero]
  | succ k ih =>
    have hdrop : es.drop k = es[k] :: es.drop (k + 1) := List.drop_eq_getElem_cons (by omega)
    have hmem : es[k] ∈ es := List.getElem_mem _
    have hdev : s.dev es[k] ≠ 0 := fun hzero => hnull (List.mem_map.mpr ⟨_, hmem, hzero⟩)
    have hne : es[k] ≠ head := fun heq => hplaced (heq ▸ hmem)
    have hnext : s.ring.next (.node es[k]) = Ring.firstHook (es.drop (k + 1)) := by
      have hcut : s.ring.Holds ((es.take k ++ [es[k]]) ++ es.drop (k + 1)) := by
        rw [List.append_assoc, List.singleton_append, ← hdrop, List.take_append_drop]
        exact hes
      have hlast := hcut.next_lastHook
      rwa [show Ring.lastHook (es.take k ++ [es[k]]) = .node es[k] by
        rw [Ring.lastHook, List.getLast?_concat]] at hlast
    rw [visit, ih (by omega), hdrop]
    show s.devNext head (s.entryDevice head (.node es[k])) (.node es[k]) = _
    rw [entryDevice_node hne, devNext, if_neg hdev,
      if_pos (show s.dev (entryAddr head (.node es[k])) = s.dev es[k] from rfl), hnext]

/-- What the call after `k` devices returns: the next device, or, at the end, the word in
front of `__head`. -/
theorem visit_cases (hes : s.ring.Holds es) (hplaced : head ∉ es) (hnull : 0 ∉ es.map s.dev)
    (hhead : nodeOffset ≤ head) (savep : Hook Nat) {k : Nat} (hk : k ≤ es.length) :
    ∃ ret savep', s.visit head savep k = some (ret, savep') ∧
      (ret = (es.map s.dev).getD k 0 ∧ ¬ ReadsHead head savep' ↔ k < es.length) := by
  refine ⟨_, _, visit_eq hes hplaced hnull savep hk, ?_⟩
  by_cases hlt : k < es.length
  · have hmem : es[k] ∈ es := List.getElem_mem _
    have hne : es[k] ≠ head := fun heq => hplaced (heq ▸ hmem)
    rw [List.drop_eq_getElem_cons hlt]
    refine iff_of_true ⟨?_, fun hreads => by cases hreads.1⟩ hlt
    show s.entryDevice head (.node es[k]) = _
    rw [entryDevice_node hne]
    simp [hlt]
  · rw [List.drop_eq_nil_of_le (by omega)]
    exact iff_of_false (fun hand => hand.2 (readsHead_head hhead)) hlt

end DevIndex

namespace Registry

variable {reg : Registry}

/-- `for_each_device` over a list built by any calls of `dev_add` and `dev_remove`, with
entries outside of `__head`. With `ds` the registered devices by number: the call after `k`
devices returns the next one without reading an entry out of the list head if and only if
there is a next one. The call that should return `NULL` reads the list head. -/
theorem dev_next_visits {s : DevIndex} (hrun : Relation.ReflTransGen Step (boot s) reg)
    {head : Nat} (hhead : nodeOffset ≤ head)
    (hplaced : ∀ es, reg.index.ring.Holds es → head ∉ es) (savep : Hook Nat) :
    ∃ ds : List Nat, ds.Perm reg.added ∧ ds.Nodup ∧
      (ds.Pairwise fun a b => reg.devno a ≤ reg.devno b) ∧
      ∀ k, k ≤ ds.length → ∃ ret savep', reg.index.visit head savep k = some (ret, savep') ∧
        (ret = ds.getD k 0 ∧ ¬ DevIndex.ReadsHead head savep' ↔ k < ds.length) := by
  obtain ⟨ds, h⟩ := run_inv hrun
  obtain ⟨es, hes, rfl⟩ := h.lists
  have hnull : 0 ∉ es.map reg.index.dev := fun hzero => h.nonnull (h.sorted.mem_iff.mp hzero)
  refine ⟨_, h.sorted.perm, h.nodup_list, ?_, fun k hk => ?_⟩
  · refine h.sorted.order.imp fun horder => ?_
    omega
  · rw [List.length_map] at hk ⊢
    exact DevIndex.visit_cases hes (hplaced es hes) hnull hhead savep hk

/-- A list with two devices. -/
theorem dev_next_visits_two_devices :
    Relation.ReflTransGen Step (boot (unused 0)) twoDevices ∧
    ∃ ds : List Nat, ds.Perm [0x200, 0x100] ∧ ds.Nodup ∧
      (ds.Pairwise fun a b => twoDevices.devno a ≤ twoDevices.devno b) ∧
      ∀ k, k ≤ ds.length → ∃ ret savep',
        twoDevices.index.visit 0x80400000 .head k = some (ret, savep') ∧
        (ret = ds.getD k 0 ∧ ¬ DevIndex.ReadsHead 0x80400000 savep' ↔ k < ds.length) := by
  have hplaced : ∀ es, twoDevices.index.ring.Holds es → 0x80400000 ∉ es := by
    intro es hes
    rw [hes.unique twoDevices_holds]
    decide
  exact ⟨twoDevices_run, dev_next_visits twoDevices_run (by decide) hplaced .head⟩

/-- On the empty list `dev_next(NULL, &savep)` returns what stands in front of `__head`. -/
theorem dev_next_reads_head :
    Relation.ReflTransGen Step (boot (unused 0xdead)) (boot (unused 0xdead)) ∧
      (boot (unused 0xdead)).added = [] ∧
      ∃ savep', (boot (unused 0xdead)).index.visit 0x80400000 .head 0 = some (0xdead, savep') ∧
        DevIndex.ReadsHead 0x80400000 savep' :=
  ⟨.refl, rfl, .head, by decide, DevIndex.readsHead_head (by decide)⟩

end Registry

end AimKernel
