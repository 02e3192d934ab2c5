import AimKernel.Dev.DevList

/-!
# AimKernel.Dev.Probe

Device discovery: `probe_devices` of `drivers/common/core.c` over a static device tree.

A pass scans the tree, puts entries whose bus is known on the list of undriven entries,
and offers that list to the drivers; passes are repeated until one of them creates no
device. Buses have no `probe` hook here.

The device list is the list of its devices in order: `dev_add` inserts behind the devices
whose number is not larger, `dev_from_name` and `for_each_device` walk it from the front
(`AimKernel.Dev.DevList`). A driver is given by the entries its `new` accepts and the
device number it gives; `new` adds a device with the entry's name, bus, bases and number
of register spaces, at an address `kmalloc` picks. `origin` records the name a device was
registered under.
-/

namespace AimKernel

/-- `struct devtree_entry`. The name fits its field with the NUL. -/
structure DevtreeEntry where
  name : CString
  model : CString
  parent : CString
  nregs : Int
  regs : List Nat
  fits : name.bytes.length < devNameMax
  deriving DecidableEq

/-- A driver: the entries its `new` returns `0` for, and the numbers of its devices. -/
structure Driver where
  accepts : DevtreeEntry → Bool
  devno : DevtreeEntry → Nat

/-- `kmalloc` of a device, given the devices in use. -/
structure DeviceHeap where
  kmalloc : List Nat → Nat
  fresh : ∀ l, kmalloc l ∉ l
  nonnull : ∀ l, kmalloc l ≠ 0

/-- What does not change while devices are probed. -/
structure Platform where
  devtree : List DevtreeEntry
  drivers : List Driver
  heap : DeviceHeap

/-- The devices, the device list, and the list of undriven entries. -/
structure Probe where
  devs : Nat → Device
  listed : List Nat
  undriven : List DevtreeEntry
  origin : Nat → CString

/-- How `probe_devices` can stop the kernel. -/
inductive ProbeFault
  /-- `panic("device mismatch DTB: %s\n", dev->name)`. -/
  | mismatch (name : CString)
  /-- `assert(strcmp(dev->name, entry->name) != 0)`. -/
  | renamed (name : CString)

/-- The name of the memory bus. -/
def memoryName : CString := ⟨[0x6d, 0x65, 0x6d, 0x6f, 0x72, 0x79], by decide⟩

/-- `__entry_match`. -/
def entryMatch (a b : DevtreeEntry) : Bool :=
  a.nregs = b.nregs && a.parent.strcmp b.parent = 0 &&
    a.regs.take a.nregs.toNat = b.regs.take a.nregs.toNat

/-- Some driver accepts the entry. -/
def Platform.accepts (pf : Platform) (entry : DevtreeEntry) : Bool :=
  pf.drivers.any fun drv => drv.accepts entry

namespace Probe

/-- `dev_from_name`; `0` is `NULL`. -/
def devFromName (s : Probe) (name : CString) : Nat :=
  (s.listed.find? fun d => (s.devs d).name.strcmp name = 0).getD 0

/-- `__dev_match`. -/
def devMatch (s : Probe) (dev : Nat) (entry : DevtreeEntry) : Bool :=
  (s.devs dev).nregs = entry.nregs && (s.devs dev).bus = s.devFromName entry.parent

/-- `__check_dup_device`. -/
def checkDupDevice (s : Probe) (entry : DevtreeEntry) : Nat :=
  (s.listed.find? fun d => s.devMatch d entry).getD 0

/-- `discover_device`. -/
def discoverDevice (entry : DevtreeEntry) (s : Probe) : Probe :=
  if s.checkDupDevice entry ≠ 0 then s
  else if s.undriven.any fun u => entryMatch u entry then s
  else { s with undriven := s.undriven ++ [entry] }

/-- The body of the scan over the device tree. -/
def scanEntry (s : Probe) (entry : DevtreeEntry) : Except ProbeFault Probe :=
  let dev := s.devFromName entry.name
  if dev ≠ 0 then
    if s.devMatch dev entry then .ok s else .error (.mismatch (s.devs dev).name)
  else if s.devFromName entry.parent = 0 then .ok s
  else
    let dev := s.checkDupDevice entry
    if dev ≠ 0 ∧ entry.parent.strcmp memoryName ≠ 0 then
      if (s.devs dev).name.strcmp entry.name = 0 then .error (.renamed entry.name)
      else
        let device := { s.devs dev with name := entry.name.strlcpy devNameMax }
        .ok { s with devs := Function.update s.devs dev device }
    else .ok (s.discoverDevice entry)

/-- `dev_add`. -/
def devAdd (dev : Nat) (s : Probe) : Probe :=
  let smaller := fun d => !decide ((s.devs dev).devno < (s.devs d).devno)
  { s with listed := s.listed.takeWhile smaller ++ dev :: s.listed.dropWhile smaller }

/-- `new` of a driver that accepts the entry. -/
def driverNew (pf : Platform) (drv : Driver) (entry : DevtreeEntry) (s : Probe) : Probe :=
  let dev := pf.heap.kmalloc s.listed
  let device : Device :=
    { name := entry.name.strlcpy devNameMax
      devno := drv.devno entry
      bus := s.devFromName entry.parent
      bases := entry.regs
      nregs := entry.nregs }
  { s with
    devs := Function.update s.devs dev device
    origin := Function.update s.origin dev entry.name }.devAdd dev

/-- The loop that offers the undriven entries to the drivers: whether a device was
created, and the entries that stay on the list. -/
def pickUp (pf : Platform) : List DevtreeEntry → Probe → Bool × List DevtreeEntry × Probe
  | [], s => (false, [], s)
  | entry :: rest, s =>
    match pf.drivers.find? fun drv => drv.accepts entry with
    | some drv =>
      let (_, kept, s) := pickUp pf rest (s.driverNew pf drv entry)
      (true, kept, s)
    | none =>
      let (found, kept, s) := pickUp pf rest s
      (found, entry :: kept, s)

/-- `__probe_devices`. -/
def probePass (pf : Platform) (s : Probe) : Except ProbeFault (Bool × Probe) := do
  let s ← pf.devtree.foldlM scanEntry s
  let (found, kept, s) := pickUp pf s.undriven s
  return (found, { s with undriven := kept })

/-- `probe_devices`, for at most `fuel` passes. -/
def probeDevices (pf : Platform) : Nat → Probe → Option (Except ProbeFault Probe)
  | 0, _ => none
  | fuel + 1, s =>
    match s.probePass pf with
    | .error e => some (.error e)
    | .ok (true, s) => probeDevices pf fuel s
    | .ok (false, s) => some (.ok s)

end Probe

end AimKernel
