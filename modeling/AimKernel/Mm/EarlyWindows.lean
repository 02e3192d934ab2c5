import AimKernel.Mm.EarlyMapping

/-!
# AimKernel.Mm.EarlyWindows

The three address windows the early mappings are handed out from.

`early_mapping_add_memory`, `early_mapping_add_kmmap` and `early_mapping_add_umem` hand
out kernel memory, `kmmap` space and user memory, each from the base of its own window
upwards; `mem_top`, `kmmap_top` and `umem_top` are where the next entry goes. A run is
recorded together with its log, which says for each queued entry which of the functions
created it: kernel and user memory have one `type`, so the queue alone does not tell.

An entry starts at the top of its window, so that it stays inside if and only if its size
does (`Window.entry_end`). The size of user memory is cut down to what is left below
`KERN_BASE`, although the window ends at `USERTOP`: this is where an entry can leave its
window (`umem_beyond_usertop`).
-/

namespace AimKernel

/-- `USER_BASE < USERTOP <= KERN_BASE < KMMAP_BASE < RESERVED_BASE`, all of them 32-bit
words. -/
structure Layout.Ordered (L : Layout) : Prop where
  user : userBase < L.usertop
  kern : L.usertop ≤ L.kernBase
  kmmap : L.kernBase < L.kmmapBase
  reserved : L.kmmapBase < L.reservedBase
  word : L.reservedBase < 2 ^ 32

namespace EarlyKmmap

/-- What is mapped early: kernel memory, `kmmap` space, user memory. -/
inductive Window
  | memory
  | kmmap
  | umem
  deriving Repr, DecidableEq

namespace Window

/-- Where the window starts. -/
def base (L : Layout) : Window → Nat
  | .memory => L.kernBase
  | .kmmap => L.kmmapBase
  | .umem => userBase

/-- Where the window ends. -/
def limit (L : Layout) : Window → Nat
  | .memory => L.kmmapBase
  | .kmmap => L.reservedBase
  | .umem => L.usertop

/-- The top pointer of the window. -/
def top (s : EarlyKmmap) : Window → Nat
  | .memory => s.memTop
  | .kmmap => s.kmmapTop
  | .umem => s.umemTop

/-- The value the function returns for an entry that it has queued. -/
def answer (e : EarlyMapping) : Window → Nat
  | .kmmap => e.vaddr
  | _ => e.size

/-- The top pointer behind the entry. -/
def bump (e : EarlyMapping) (t : EarlyKmmap) : Window → EarlyKmmap
  | .memory => { t with memTop := u32 (t.memTop + e.size) }
  | .kmmap => { t with kmmapTop := u32 (t.kmmapTop + e.size) }
  | .umem => { t with umemTop := u32 (t.umemTop + e.size) }

/-- The size of the entry for a request. -/
def granted (L : Layout) (size : Nat) (s : EarlyKmmap) : Window → Nat
  | .memory => min size (sub32 L.kmmapBase s.memTop)
  | .kmmap => size
  | .umem => min size (sub32 L.kernBase s.umemTop)

/-- The function that maps into the window. -/
def call (addr size : Nat) : Window → Call
  | .memory => .addMemory addr size
  | .kmmap => .addKmmap addr size
  | .umem => .addUmem addr size

end Window

section Windows

variable (L : Layout) (valid : EarlyMapping → Bool)

/-- What the function of the window returns, and the state after it. -/
def Window.exec (addr size : Nat) (s : EarlyKmmap) : Window → Nat × EarlyKmmap
  | .memory => s.earlyMappingAddMemory L valid addr size
  | .kmmap => s.earlyMappingAddKmmap L valid addr size
  | .umem => s.earlyMappingAddUmem L valid addr size

/-- The entry lies inside the window. -/
def Window.Inside (w : Window) (e : EarlyMapping) : Prop :=
  w.base L ≤ e.vaddr ∧ e.vaddr + e.size ≤ w.limit L

/-- User memory that is asked for fits below `USERTOP`, or the two bounds that
`early_mapping_add_umem` uses are the same. -/
def Window.Fits (w : Window) (size : Nat) (s : EarlyKmmap) : Prop :=
  w = .umem → s.umemTop < L.usertop → L.usertop = L.kernBase ∨ size ≤ L.usertop - s.umemTop

/-- Runs of the three functions after `early_mapping_clear`, with calls that meet `ok`. The
log has the entries the calls appended to the queue, each with its window. -/
inductive WindowRun (ok : Window → Nat → EarlyKmmap → Prop) :
    List (Window × EarlyMapping) → EarlyKmmap → Prop
  | clear : WindowRun ok [] (earlyMappingClear L)
  | call {log : List (Window × EarlyMapping)} {s : EarlyKmmap} (w : Window) (addr size : Nat)
      (hrun : WindowRun ok log s) (hok : ok w size s) :
      WindowRun ok
        (log ++ (((w.call addr size).run L valid s).queue.drop s.queue.length).map (Prod.mk w))
        ((w.call addr size).run L valid s)

variable {L valid} {s t : EarlyKmmap} {w : Window} {addr size : Nat} {e : EarlyMapping}

/-! ### One call -/

/-- `early_mapping_add` fails and changes nothing, or appends the entry. -/
theorem earlyMappingAdd_cases (valid : EarlyMapping → Bool) (e : EarlyMapping) (s : EarlyKmmap) :
    s.addCheck valid e ≠ 0 ∧ (s.earlyMappingAdd valid e).1 < 0 ∧
        (s.earlyMappingAdd valid e).2 = s ∨
      s.addCheck valid e = 0 ∧ ∃ hbound, s.earlyMappingAdd valid e =
        (0, { s with queue := s.queue ++ [e], bound := hbound }) := by
  by_cases hcheck : s.addCheck valid e = 0
  · right
    exact ⟨hcheck, room_of_addCheck hcheck, dif_pos hcheck⟩
  · left
    have hrun : s.earlyMappingAdd valid e = (s.addCheck valid e, s) := dif_neg hcheck
    have hneg : s.addCheck valid e < 0 := by
      unfold addCheck enomem einval at hcheck ⊢
      split
      · decide
      · split
        · decide
        · split
          · decide
          · simp_all
    rw [hrun]
    exact ⟨hcheck, hneg, rfl⟩

/-- The common part of the functions: with no entry, or one that is refused, nothing
changes. -/
theorem commit_cases {α : Type} (fail : α) (done : EarlyMapping → α)
    (bump : EarlyMapping → EarlyKmmap → EarlyKmmap) (entry : Option EarlyMapping) :
    (∀ e ∈ entry, s.addCheck valid e ≠ 0) ∧
        (match entry with
          | none => (fail, s)
          | some e =>
            let (ret, t) := s.earlyMappingAdd valid e
            if ret < 0 then (fail, t) else (done e, bump e t)) = (fail, s) ∨
      ∃ e hbound, entry = some e ∧ s.addCheck valid e = 0 ∧
        (match entry with
          | none => (fail, s)
          | some e =>
            let (ret, t) := s.earlyMappingAdd valid e
            if ret < 0 then (fail, t) else (done e, bump e t)) =
          (done e, bump e { s with queue := s.queue ++ [e], bound := hbound }) := by
  cases entry with
  | none => exact .inl ⟨fun e he => absurd he (Option.not_mem_none e), rfl⟩
  | some e =>
    rcases earlyMappingAdd_cases valid e s with ⟨hcheck, hfail, hsame⟩ | ⟨hcheck, hbound, hadd⟩
    · left
      refine ⟨fun e' he' => ?_, ?_⟩
      · rw [← Option.some.inj he']
        exact hcheck
      · dsimp only
        rw [if_pos hfail, hsame]
    · right
      refine ⟨e, hbound, rfl, hcheck, ?_⟩
      dsimp only
      rw [hadd]
      rfl

theorem Window.run_eq (w : Window) :
    (w.call addr size).run L valid s = (w.exec L valid addr size s).2 := by
  cases w <;> rfl

/-- The call is refused and changes nothing, or it appends its entry. -/
theorem Window.exec_cases (L : Layout) (valid : EarlyMapping → Bool) (w : Window)
    (addr size : Nat) (s : EarlyKmmap) :
    (∀ e ∈ (w.call addr size).entry L s, s.addCheck valid e ≠ 0) ∧
        w.exec L valid addr size s = (0, s) ∨
      ∃ e hbound, (w.call addr size).entry L s = some e ∧ s.addCheck valid e = 0 ∧
        w.exec L valid addr size s =
          (w.answer e, w.bump e { s with queue := s.queue ++ [e], bound := hbound }) := by
  cases w with
  | memory => exact commit_cases 0 (answer · .memory) (bump · · .memory) (s.memoryEntry L addr size)
  | kmmap => exact commit_cases 0 (answer · .kmmap) (bump · · .kmmap) (s.kmmapEntry L addr size)
  | umem => exact commit_cases 0 (answer · .umem) (bump · · .umem) (s.umemEntry L addr size)

/-- What a call does: nothing, or it appends its entry and moves the top of its window. -/
theorem Window.call_cases (L : Layout) (valid : EarlyMapping → Bool) (w : Window)
    (addr size : Nat) (s : EarlyKmmap) :
    (w.call addr size).run L valid s = s ∨
      ∃ e, (w.call addr size).entry L s = some e ∧
        ((w.call addr size).run L valid s).queue = s.queue ++ [e] ∧
        w.top ((w.call addr size).run L valid s) = u32 (w.top s + e.size) ∧
        ∀ v, v ≠ w → v.top ((w.call addr size).run L valid s) = v.top s := by
  rw [w.run_eq]
  rcases w.exec_cases L valid addr size s with ⟨-, hsame⟩ | ⟨e, hbound, hentry, -, hexec⟩
  · exact .inl (congrArg Prod.snd hsame)
  · refine .inr ⟨e, hentry, ?_⟩
    rw [hexec]
    refine ⟨by cases w <;> rfl, by cases w <;> rfl, fun v hv => ?_⟩
    cases w <;> cases v <;> first | rfl | exact absurd rfl hv

theorem sub32_eq {a b : Nat} (hab : b ≤ a) (ha : a < 2 ^ 32) : sub32 a b = a - b := by
  unfold sub32 u32
  omega

/-- The entry of a call starts at the top of its window, below the limit, and has the size that is
granted. -/
theorem Window.entry_start (h : (w.call addr size).entry L s = some e) :
    e.vaddr = w.top s ∧ w.top s < w.limit L ∧ e.size = w.granted L size s ∧
      (w = .kmmap → size ≤ sub32 L.reservedBase s.kmmapTop) := by
  cases w with
  | memory =>
    simp only [call, Call.entry, memoryEntry] at h
    split at h
    · cases h
    next hlt =>
      cases h
      exact ⟨rfl, Nat.lt_of_not_ge hlt, rfl, fun hw => Window.noConfusion hw⟩
  | kmmap =>
    simp only [call, Call.entry, kmmapEntry] at h
    split at h
    · cases h
    next hlt =>
      split at h
      · cases h
      next hle =>
        cases h
        exact ⟨rfl, Nat.lt_of_not_ge hlt, rfl, fun _ => Nat.le_of_not_gt hle⟩
  | umem =>
    simp only [call, Call.entry, umemEntry] at h
    split at h
    · cases h
    next hlt =>
      cases h
      exact ⟨rfl, Nat.lt_of_not_ge hlt, rfl, fun hw => Window.noConfusion hw⟩

/-- The entry of a call ends inside its window if and only if the size fits. -/
theorem Window.entry_end (hL : L.Ordered) (h : (w.call addr size).entry L s = some e) :
    e.vaddr + e.size ≤ w.limit L ↔ w.Fits L size s := by
  obtain ⟨huser, hkern, hkmmap, hreserved, hword⟩ := hL
  obtain ⟨hstart, hlt, hsize, hle⟩ := entry_start h
  rw [hstart, hsize]
  cases w with
  | memory =>
    refine iff_of_true ?_ (fun hw => Window.noConfusion hw)
    simp only [granted, top, limit] at hlt ⊢
    rw [sub32_eq (by omega) (by omega)]
    omega
  | kmmap =>
    refine iff_of_true ?_ (fun hw => Window.noConfusion hw)
    have hle := hle rfl
    simp only [granted, top, limit] at hlt ⊢
    rw [sub32_eq (by omega) (by omega)] at hle
    omega
  | umem =>
    simp only [granted, top, limit, Fits, true_implies] at hlt ⊢
    rw [sub32_eq (by omega) (by omega)]
    omega

/-! ### Runs -/

/-- The log accounts for the queue, its entries lie inside their windows, and the top
pointers are inside theirs. -/
structure Windowed (L : Layout) (log : List (Window × EarlyMapping)) (s : EarlyKmmap) : Prop where
  queue : log.map Prod.snd = s.queue
  inside : ∀ x ∈ log, x.1.Inside L x.2
  top : ∀ w : Window, w.base L ≤ w.top s ∧ w.top s ≤ w.limit L

theorem Windowed.clear (hL : L.Ordered) : Windowed L [] (earlyMappingClear L) := by
  obtain ⟨huser, -, hkmmap, hreserved, -⟩ := hL
  refine ⟨rfl, fun x hx => absurd hx List.not_mem_nil, fun w => ?_⟩
  cases w with
  | memory => exact ⟨Nat.le_refl _, hkmmap.le⟩
  | kmmap => exact ⟨Nat.le_refl _, hreserved.le⟩
  | umem => exact ⟨Nat.le_refl _, huser.le⟩

theorem Window.limit_lt (hL : L.Ordered) (w : Window) : w.limit L < 2 ^ 32 := by
  obtain ⟨-, hkern, hkmmap, hreserved, hword⟩ := hL
  cases w <;> simp only [limit] <;> omega

theorem Windowed.call (hL : L.Ordered) {log : List (Window × EarlyMapping)}
    (h : Windowed L log s) (hfits : w.Fits L size s) :
    Windowed L
      (log ++ (((w.call addr size).run L valid s).queue.drop s.queue.length).map (Prod.mk w))
      ((w.call addr size).run L valid s) := by
  rcases Window.call_cases L valid w addr size s with hsame | ⟨e, hentry, hqueue, htop, hother⟩
  · rw [hsame, List.drop_length, List.map_nil, List.append_nil]
    exact h
  · obtain ⟨hstart, hbelow, -⟩ := Window.entry_start hentry
    have hend := (Window.entry_end hL hentry).mpr hfits
    have hlimit := w.limit_lt hL
    rw [hqueue, List.drop_left, List.map_singleton]
    refine ⟨?_, ?_, ?_⟩
    · rw [hqueue, List.map_append, h.queue, List.map_singleton]
    · intro x hx
      rcases List.mem_append.mp hx with hx | hx
      · exact h.inside x hx
      · rw [List.mem_singleton.mp hx]
        exact ⟨by rw [hstart]; exact (h.top w).1, hend⟩
    · intro v
      by_cases hv : v = w
      · have hbase := (h.top w).1
        have hword : u32 (w.top s + e.size) = w.top s + e.size := Nat.mod_eq_of_lt (by omega)
        rw [hv, htop, hword]
        constructor <;> omega
      · rw [hother v hv]
        exact h.top v

/-- Early mapping windows: after `early_mapping_clear` and any calls of the three functions
whose user memory fits below `USERTOP`, every entry of the queue lies inside the window of
the function that created it, and no top pointer exceeds the limit of its window. -/
theorem early_mapping_windows (hL : L.Ordered) {log : List (Window × EarlyMapping)}
    (hrun : WindowRun L valid (Window.Fits L) log s) :
    log.map Prod.snd = s.queue ∧ (∀ x ∈ log, x.1.Inside L x.2) ∧
      ∀ w : Window, w.top s ≤ w.limit L := by
  have hwindowed : Windowed L log s := by
    induction hrun with
    | clear => exact .clear hL
    | call w addr size _ hok ih => exact ih.call hL hok
  exact ⟨hwindowed.queue, hwindowed.inside, fun w => (hwindowed.top w).2⟩

/-- The condition is sharp: user memory that does not fit and is accepted leaves its
window. -/
theorem Window.outside_of_not_fits (hL : L.Ordered)
    (hentry : (w.call addr size).entry L s = some e) (h : ¬ w.Fits L size s) :
    ¬ w.Inside L e :=
  fun hinside => h ((Window.entry_end hL hentry).mp hinside.2)

end Windows

theorem defaultLayout_ordered : defaultLayout.Ordered := by
  constructor <;> decide

/-- All of user memory, more kernel memory than there is room for, then a `kmmap` page. -/
theorem early_mapping_windows_full :
    ∃ log s, WindowRun defaultLayout (fun _ => true) (Window.Fits defaultLayout) log s ∧
      log.length = 3 ∧ log.map Prod.snd = s.queue ∧
      (∀ x ∈ log, x.1.Inside defaultLayout x.2) ∧
      ∀ w : Window, w.top s ≤ w.limit defaultLayout := by
  have hclear : WindowRun defaultLayout (fun _ => true) (Window.Fits defaultLayout) []
      (earlyMappingClear defaultLayout) := .clear
  have hfits : Window.umem.Fits defaultLayout 0x7ff00000 (earlyMappingClear defaultLayout) :=
    fun _ _ => .inr (by decide)
  have hrun := ((hclear.call .umem 0x10000000 0x7ff00000 hfits).call .memory 0 0x80000000
    fun hw => Window.noConfusion hw).call .kmmap 0x1fe00000 0x1000 fun hw => Window.noConfusion hw
  exact ⟨_, _, hrun, by decide, early_mapping_windows defaultLayout_ordered hrun⟩

/-- User memory of 2 GB is mapped past `USERTOP`, up to `KERN_BASE`. -/
theorem umem_beyond_usertop :
    ∃ log s, WindowRun defaultLayout (fun _ => true) (fun _ _ _ => True) log s ∧
      (∃ x ∈ log, ¬ x.1.Inside defaultLayout x.2) ∧
      Window.umem.limit defaultLayout < Window.umem.top s := by
  have hclear : WindowRun defaultLayout (fun _ => true) (fun _ _ _ => True) []
      (earlyMappingClear defaultLayout) := .clear
  refine ⟨_, _, hclear.call .umem 0x10000000 0x80000000 trivial, ?_, by decide⟩
  refine ⟨(.umem, ⟨0x10000000, 0, 0x80000000, .memory⟩), by decide, ?_⟩
  have hentry : (Window.umem.call 0x10000000 0x80000000).entry defaultLayout
      (earlyMappingClear defaultLayout) = some ⟨0x10000000, 0, 0x80000000, .memory⟩ := by decide
  exact Window.outside_of_not_fits defaultLayout_ordered hentry fun hfits =>
    (hfits rfl (by decide)).elim (by decide) (by decide)

end EarlyKmmap

end AimKernel
