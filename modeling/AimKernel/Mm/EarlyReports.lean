import AimKernel.Mm.EarlyWindows

/-!
# AimKernel.Mm.EarlyReports

What the return values of the early mapping functions tell.

`early_mapping_add_memory`, `early_mapping_add_umem` and `early_mapping_add_devspace` return
the size they have mapped, and zero if they have failed; `early_mapping_add_kmmap` returns an
address, and `NULL` if it has failed. A request for no bytes at all is not refused: an empty
entry is queued, and the size returned is the zero that stands for failure
(`early_mapping_add_memory_of_nothing`). The address cannot be `NULL` once
`early_mapping_clear` has been called (`kmmapTop_ne_zero`).
-/

namespace AimKernel.EarlyKmmap

/-- The functions that queue an entry of their own making. -/
inductive Wrapper
  | window (w : Window)
  | devspace
  deriving Repr, DecidableEq

namespace Wrapper

/-- The call of the function. -/
def call (addr size : Nat) : Wrapper → Call
  | .window w => w.call addr size
  | .devspace => .addDevspace addr size

/-- What the function returns for an entry that it has queued. -/
def answer (e : EarlyMapping) : Wrapper → Nat
  | .window .kmmap => e.vaddr
  | _ => e.size

variable (L : Layout) (valid : EarlyMapping → Bool)

/-- The value that the function returns. -/
def result (addr size : Nat) (s : EarlyKmmap) : Wrapper → Nat
  | .window .memory => (s.earlyMappingAddMemory L valid addr size).1
  | .window .kmmap => (s.earlyMappingAddKmmap L valid addr size).1
  | .window .umem => (s.earlyMappingAddUmem L valid addr size).1
  | .devspace => (s.earlyMappingAddDevspace valid addr size).1

/-- The size that is reported: the value returned, or the advance of the window for the
function that returns an address. -/
def reported (addr size : Nat) (s : EarlyKmmap) : Wrapper → Nat
  | .window .kmmap => ((Window.kmmap.call addr size).run L valid s).kmmapTop - s.kmmapTop
  | x => x.result L valid addr size s

/-- Zero is returned exactly if nothing has changed, neither the queue nor a top pointer;
otherwise one entry was appended, of the size that is reported. -/
structure Tells (x : Wrapper) (addr size : Nat) (s : EarlyKmmap) : Prop where
  failed : x.result L valid addr size s = 0 ↔ (x.call addr size).run L valid s = s
  queued : (x.call addr size).run L valid s ≠ s →
    ∃ e, ((x.call addr size).run L valid s).queue = s.queue ++ [e] ∧
      e.size = x.reported L valid addr size s

/-- The window is used up, or the entry does not pass the checks of `early_mapping_add`. -/
def Refused (x : Wrapper) (addr size : Nat) (s : EarlyKmmap) : Prop :=
  ∀ e ∈ (x.call addr size).entry L s, s.addCheck valid e ≠ 0

/-- The call is refused, or the answer to it is not zero: a size that was asked for, or the top
of the `kmmap` window. -/
def Unambiguous (x : Wrapper) (addr size : Nat) (s : EarlyKmmap) : Prop :=
  x.Refused L valid addr size s ∨ if x = .window .kmmap then s.kmmapTop ≠ 0 else size ≠ 0

variable {L valid} {x : Wrapper} {addr size : Nat} {s t : EarlyKmmap} {e : EarlyMapping}

/-! ### One call -/

/-- A call is refused and changes nothing, or it appends its entry and answers for it. -/
theorem call_cases (L : Layout) (valid : EarlyMapping → Bool) (x : Wrapper) (addr size : Nat)
    (s : EarlyKmmap) :
    x.Refused L valid addr size s ∧ x.result L valid addr size s = 0 ∧
        (x.call addr size).run L valid s = s ∨
      ∃ e, (x.call addr size).entry L s = some e ∧ s.addCheck valid e = 0 ∧
        x.result L valid addr size s = x.answer e ∧
        ((x.call addr size).run L valid s).queue = s.queue ++ [e] ∧
        ((x.call addr size).run L valid s).kmmapTop =
          if x = .window .kmmap then u32 (s.kmmapTop + e.size) else s.kmmapTop := by
  cases x with
  | window w =>
    have hrun : ((window w).call addr size).run L valid s = (w.exec L valid addr size s).2 :=
      w.run_eq
    have hresult : (window w).result L valid addr size s = (w.exec L valid addr size s).1 := by
      cases w <;> rfl
    rw [hrun, hresult]
    rcases w.exec_cases L valid addr size s with ⟨href, hsame⟩ | ⟨e, hbound, hentry, hcheck, hexec⟩
    · exact .inl ⟨href, congrArg Prod.fst hsame, congrArg Prod.snd hsame⟩
    · refine .inr ⟨e, hentry, hcheck, ?_⟩
      rw [hexec]
      cases w <;> exact ⟨rfl, rfl, rfl⟩
  | devspace =>
    rcases commit_cases 0 (fun _ => size) (fun _ t => t) (some (devspaceEntry addr size)) with
      ⟨href, hsame⟩ | ⟨e, hbound, hentry, hcheck, hrun⟩
    · exact .inl ⟨href, congrArg Prod.fst hsame, congrArg Prod.snd hsame⟩
    · have hstate : (devspace.call addr size).run L valid s = _ := congrArg Prod.snd hrun
      have hsize : e.size = size := by
        rw [← Option.some.inj hentry]
        rfl
      refine .inr ⟨e, hentry, hcheck, (congrArg Prod.fst hrun).trans hsize.symm, ?_⟩
      rw [hstate]
      exact ⟨rfl, rfl⟩

/-- A function that returns a size queues an empty entry only if it was asked to. -/
theorem size_eq_zero (hL : L.Ordered) (hx : x ≠ .window .kmmap)
    (h : (x.call addr size).entry L s = some e) : e.size = 0 ↔ size = 0 := by
  obtain ⟨-, hkern, hkmmap, hreserved, hword⟩ := hL
  cases x with
  | window w =>
    obtain ⟨-, hlt, hsize, -⟩ := Window.entry_start h
    rw [hsize]
    cases w with
    | memory =>
      simp only [Window.granted, Window.top, Window.limit] at hlt ⊢
      rw [sub32_eq (by omega) (by omega)]
      omega
    | kmmap => exact absurd rfl hx
    | umem =>
      simp only [Window.granted, Window.top, Window.limit] at hlt ⊢
      rw [sub32_eq (by omega) (by omega)]
      omega
  | devspace =>
    rw [← Option.some.inj h]
    exact Iff.rfl

/-- The entry of `early_mapping_add_kmmap` starts at the top of the window and fits into it. -/
theorem kmmap_entry (hL : L.Ordered)
    (h : ((window .kmmap).call addr size).entry L s = some e) :
    e.vaddr = s.kmmapTop ∧ s.kmmapTop + e.size ≤ L.reservedBase := by
  have hstart := (Window.entry_start (w := .kmmap) h).1
  have hend := (Window.entry_end (w := .kmmap) hL h).mpr fun hw => Window.noConfusion hw
  rw [hstart] at hend
  exact ⟨hstart, hend⟩

/-- A call that was not refused is told by its answer, and by nothing else. -/
theorem answer_ne_zero (hL : L.Ordered) (h : (x.call addr size).entry L s = some e) :
    x.answer e ≠ 0 ↔ if x = .window .kmmap then s.kmmapTop ≠ 0 else size ≠ 0 := by
  by_cases hx : x = .window .kmmap
  · subst hx
    exact not_congr (by rw [answer, (kmmap_entry hL h).1])
  · have hanswer : x.answer e = e.size := by
      cases x with
      | window w =>
        cases w with
        | memory => rfl
        | kmmap => exact absurd rfl hx
        | umem => rfl
      | devspace => rfl
    rw [if_neg hx, hanswer]
    exact not_congr (size_eq_zero hL hx h)

/-- The size reported for an entry that was queued. -/
theorem reported_eq (hL : L.Ordered) (h : (x.call addr size).entry L s = some e)
    (hresult : x.result L valid addr size s = x.answer e)
    (htop : ((x.call addr size).run L valid s).kmmapTop =
      if x = .window .kmmap then u32 (s.kmmapTop + e.size) else s.kmmapTop) :
    x.reported L valid addr size s = e.size := by
  cases x with
  | window w =>
    cases w with
    | memory => exact hresult
    | kmmap =>
      have hfits := (kmmap_entry hL h).2
      have hword := hL.word
      change ((Window.kmmap.call addr size).run L valid s).kmmapTop - s.kmmapTop = e.size
      rw [if_pos rfl, u32, Nat.mod_eq_of_lt (by omega)] at htop
      change ((Window.kmmap.call addr size).run L valid s).kmmapTop = _ at htop
      omega
    | umem => exact hresult
  | devspace => exact hresult

/-- **A failed early mapping leaves no trace**, and the return value tells which one has
failed, exactly if the call is refused, or is for a positive size (with a `kmmap` window that
does not start at `NULL`, for the function that returns an address). -/
theorem early_mapping_leaves_no_trace (hL : L.Ordered) (x : Wrapper) (addr size : Nat)
    (s : EarlyKmmap) : x.Tells L valid addr size s ↔ x.Unambiguous L valid addr size s := by
  rcases call_cases L valid x addr size s with
    ⟨href, hzero, hsame⟩ | ⟨e, hentry, hcheck, hresult, hqueue, htop⟩
  · exact iff_of_true ⟨iff_of_true hzero hsame, fun hne => absurd hsame hne⟩ (.inl href)
  · have hchanged : (x.call addr size).run L valid s ≠ s := by
      intro hsame
      rw [hsame] at hqueue
      exact absurd (congrArg List.length hqueue) (by simp)
    have hnot : ¬ x.Refused L valid addr size s := fun href => href e hentry hcheck
    have hanswer := answer_ne_zero hL hentry
    constructor
    · intro htells
      refine .inr (hanswer.mp fun hzero => ?_)
      exact hchanged (htells.failed.mp (hresult.trans hzero))
    · intro hcond
      have hne := hanswer.mpr (hcond.resolve_left hnot)
      refine ⟨iff_of_false (fun hzero => hne (hresult.symm.trans hzero)) hchanged, fun _ => ?_⟩
      exact ⟨e, hqueue, (reported_eq hL hentry hresult htop).symm⟩

end Wrapper

/-- A page of kernel memory. -/
theorem early_mapping_leaves_no_trace_page :
    (Wrapper.window .memory).Tells defaultLayout (fun _ => true) 0 0x1000
      (earlyMappingClear defaultLayout) :=
  (Wrapper.early_mapping_leaves_no_trace defaultLayout_ordered _ _ _ _).mpr (.inr (by decide))

/-- Right after `early_mapping_clear`, a request for no memory at all is answered with the zero
of a failure, and an empty entry is queued. -/
theorem early_mapping_add_memory_of_nothing :
    (earlyMappingClear defaultLayout).earlyMappingAddMemory defaultLayout (fun _ => true) 0 0 =
        (0, ⟨[⟨0, 0x80000000, 0, .memory⟩], by decide, 0x80000000, 0xf0000000, 0⟩) ∧
      ¬ (Wrapper.window .memory).Tells defaultLayout (fun _ => true) 0 0
        (earlyMappingClear defaultLayout) := by
  have hrun : (earlyMappingClear defaultLayout).earlyMappingAddMemory defaultLayout
      (fun _ => true) 0 0 =
        (0, ⟨[⟨0, 0x80000000, 0, .memory⟩], by decide, 0x80000000, 0xf0000000, 0⟩) := rfl
  refine ⟨hrun, fun htells => ?_⟩
  have hsame := htells.failed.mp (congrArg Prod.fst hrun)
  have hqueue : [(⟨0, 0x80000000, 0, .memory⟩ : EarlyMapping)] = [] :=
    congrArg EarlyKmmap.queue ((congrArg Prod.snd hrun).symm.trans hsame)
  cases hqueue

/-! ### Runs -/

section Runs

variable {L : Layout} {valid : EarlyMapping → Bool} {s t : EarlyKmmap}

/-- The top of the `kmmap` window is inside the window. -/
def KmmapInside (L : Layout) (s : EarlyKmmap) : Prop :=
  L.kmmapBase ≤ s.kmmapTop ∧ s.kmmapTop ≤ L.reservedBase

theorem Wrapper.kmmapInside (hL : L.Ordered) (x : Wrapper) (addr size : Nat)
    (h : KmmapInside L s) : KmmapInside L ((x.call addr size).run L valid s) := by
  rcases x.call_cases L valid addr size s with ⟨-, -, hsame⟩ | ⟨e, hentry, -, -, -, htop⟩
  · rw [hsame]
    exact h
  · by_cases hx : x = .window .kmmap
    · subst hx
      have hfits := (Wrapper.kmmap_entry hL hentry).2
      have hword := hL.word
      rw [if_pos rfl, u32, Nat.mod_eq_of_lt (by omega)] at htop
      unfold KmmapInside at h ⊢
      omega
    · rw [if_neg hx] at htop
      unfold KmmapInside
      rw [htop]
      exact h

theorem Call.kmmapInside (hL : L.Ordered) (c : Call) (h : KmmapInside L s) :
    KmmapInside L (c.run L valid s) := by
  cases c with
  | clear => exact ⟨Nat.le_refl _, hL.reserved.le⟩
  | add e =>
    rcases earlyMappingAdd_cases valid e s with ⟨-, -, hsame⟩ | ⟨-, hbound, hadd⟩
    · exact (congrArg (KmmapInside L) hsame).mpr h
    · exact (congrArg (fun r => KmmapInside L r.2) hadd).mpr h
  | addMemory addr size => exact (Wrapper.window .memory).kmmapInside hL addr size h
  | addKmmap addr size => exact (Wrapper.window .kmmap).kmmapInside hL addr size h
  | addUmem addr size => exact (Wrapper.window .umem).kmmapInside hL addr size h
  | addDevspace addr size => exact Wrapper.devspace.kmmapInside hL addr size h

/-- After `early_mapping_clear` the top of the `kmmap` window is never `NULL`. -/
theorem kmmapTop_ne_zero (hL : L.Ordered)
    (hrun : Relation.ReflTransGen (fun s t => ∃ c : Call, t = c.run L valid s)
      (earlyMappingClear L) s) : s.kmmapTop ≠ 0 := by
  suffices h : KmmapInside L s by
    have hbase := hL.kmmap
    have htop := h.1
    omega
  induction hrun with
  | refl => exact ⟨Nat.le_refl _, hL.reserved.le⟩
  | tail _ hstep ih =>
    obtain ⟨c, rfl⟩ := hstep
    exact c.kmmapInside hL ih

theorem kmmapTop_ne_zero_one_page :
    (Call.run defaultLayout (fun _ => true) (earlyMappingClear defaultLayout)
      (.addKmmap 0 0x1000)).kmmapTop ≠ 0 :=
  @kmmapTop_ne_zero defaultLayout (fun _ => true) _ defaultLayout_ordered (.tail .refl ⟨_, rfl⟩)

end Runs

end AimKernel.EarlyKmmap
