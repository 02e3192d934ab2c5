import Mathlib.Algebra.Group.Int.Defs
import Mathlib.Algebra.Group.Nat.Defs
import Mathlib.Data.Fintype.Card
import Mathlib.Data.List.Infix
import Mathlib.Data.List.Nodup
import Mathlib.Logic.Function.Basic
import Mathlib.Logic.Relation

/-!
# AimKernel.Sync.TicketLock

The MIPS spin lock of `arch-sync.h`, over any number of CPUs.

A lock is one 32-bit word: the low half is the ticket being served (`head`), the
high half the next free ticket (`tail`). `spin_lock` draws a ticket with a word-wide
`ll`/`sc` pair and waits for it with half-word loads; `spin_unlock` loads `head` and
stores its successor, a half-word at a time. Each of these accesses is one step.

Both halves wrap. What makes the lock work over runs of any length is that the CPUs
that have drawn a ticket and not yet stored `head` form a queue (`Inv`), whose length
is below `2 ^ 16`, so that no two of them can have the same ticket.

The lock is free when the two halves are equal. `spin_is_locked` tests for a zero word
instead, which a free lock only has when the halves have wrapped (`spin_is_locked_exact_iff`).
-/

namespace AimKernel.TicketLock

open Function (update update_of_ne update_self)

variable {n : Nat}

/-! ### The machine -/

/-- Where a CPU is in its loop of `spin_lock` and `spin_unlock`. -/
inductive Pc
  /-- Before the `ll` of `spin_lock`. -/
  | idle
  /-- Between `ll`, which loaded the word, and `sc`. -/
  | linked (lock : Nat)
  /-- In the loop that waits for `my_tail`. -/
  | waiting (myTail : Nat)
  /-- Between `spin_lock` and `spin_unlock`. -/
  | inside
  /-- In `spin_unlock`, with the new head computed and not yet stored. -/
  | leaving (head : Nat)
  deriving Repr, DecidableEq

/-- Does the CPU hold the lock? -/
def Pc.holds : Pc → Bool
  | .inside | .leaving _ => true
  | _ => false

/-- Has the CPU drawn a ticket that is still in use? -/
def Pc.queued : Pc → Bool
  | .waiting _ | .inside | .leaving _ => true
  | _ => false

/-- The `head` half of a lock word. -/
def head (lock : Nat) : Nat := lock % 2 ^ 16

/-- The `tail` half of a lock word. -/
def tail (lock : Nat) : Nat := lock / 2 ^ 16 % 2 ^ 16

/-- A half-word store to `head`. -/
def setHead (lock h : Nat) : Nat := lock / 2 ^ 16 * 2 ^ 16 + h % 2 ^ 16

/-- The lock word and the CPUs. `took` and `entered` are histories: the CPUs in the
order in which their `sc` succeeded, and in the order in which they left
`spin_lock`. -/
structure State (n : Nat) where
  lock : Nat
  pc : Fin n → Pc
  took : List (Fin n)
  entered : List (Fin n)

/-- `spinlock_init`, with no CPU near the lock. -/
def init : State n := ⟨0, fun _ => .idle, [], []⟩

/-- Move one CPU. -/
def State.goto (s : State n) (c : Fin n) (pc : Pc) : State n :=
  { s with pc := Function.update s.pc c pc }

/-- Let one CPU return from `spin_lock`. -/
def State.enter (s : State n) (c : Fin n) : State n :=
  { s.goto c .inside with entered := s.entered ++ [c] }

/-- A successful `sc` of a CPU that loaded `v`. -/
def State.sc (s : State n) (c : Fin n) (v : Nat) : State n :=
  { s with lock := (v + 0x10000) % 2 ^ 32, took := s.took ++ [c] }

/-- A successful `sc` and the branch after it, which compares the two halves of the
loaded word. -/
def State.draw (s : State n) (c : Fin n) (v : Nat) : State n :=
  if head v = tail v then (s.sc c v).enter c else (s.sc c v).goto c (.waiting (tail v))

/-- The atomic steps. -/
inductive Step (s : State n) : State n → Prop
  /-- `ll`. -/
  | link (c : Fin n) : s.pc c = .idle → Step s (s.goto c (.linked s.lock))
  /-- `sc` fails, for whatever reason. -/
  | lost (c : Fin n) (v : Nat) : s.pc c = .linked v → Step s (s.goto c .idle)
  /-- `sc` succeeds; the word is still the one loaded. -/
  | draw (c : Fin n) (v : Nat) : s.pc c = .linked v → s.lock = v → Step s (s.draw c v)
  /-- `lhu` finds another ticket served. -/
  | spin (c : Fin n) (t : Nat) : s.pc c = .waiting t → head s.lock ≠ t → Step s s
  /-- `lhu` finds the CPU's own ticket served. -/
  | enter (c : Fin n) (t : Nat) : s.pc c = .waiting t → head s.lock = t → Step s (s.enter c)
  /-- The load of `spin_unlock`. -/
  | load (c : Fin n) : s.pc c = .inside → Step s (s.goto c (.leaving (head s.lock + 1)))
  /-- The store of `spin_unlock`. -/
  | store (c : Fin n) (h : Nat) : s.pc c = .leaving h →
      Step s { s.goto c .idle with lock := setHead s.lock h }

/-! ### The queue -/

/-- The CPU at position `i` of the queue, with `served` critical sections over. -/
def Placed (served i : Nat) : Pc → Prop
  | .waiting t => t = (served + i) % 2 ^ 16
  | .inside => i = 0
  | .leaving h => i = 0 ∧ h = served % 2 ^ 16 + 1
  | _ => False

/-- The CPUs that have drawn a ticket are `gone`, in the order of their tickets,
followed by `queue`; the first of the queue may hold the lock. -/
structure Inv (s : State n) (gone queue : List (Fin n)) : Prop where
  took : s.took = gone ++ queue
  lock : s.lock = (gone.length + queue.length) % 2 ^ 16 * 2 ^ 16 + gone.length % 2 ^ 16
  nodup : queue.Nodup
  queued : ∀ c, c ∈ queue ↔ (s.pc c).queued = true
  placed : ∀ i c, queue[i]? = some c → Placed gone.length i (s.pc c)
  entered : s.entered = gone ++ queue.filter fun c => (s.pc c).holds

theorem init_inv : Inv (init : State n) [] [] where
  took := rfl
  lock := by simp [init]
  nodup := List.nodup_nil
  queued := by simp [init, Pc.queued]
  placed := by simp
  entered := rfl

/-! ### Tickets modulo `2 ^ 16` -/

theorem head_word (t h : Nat) : head (t % 2 ^ 16 * 2 ^ 16 + h % 2 ^ 16) = h % 2 ^ 16 := by
  unfold head
  omega

theorem tail_word (t h : Nat) : tail (t % 2 ^ 16 * 2 ^ 16 + h % 2 ^ 16) = t % 2 ^ 16 := by
  unfold tail
  omega

/-- Drawing a ticket carries out of the word, never into `head`. -/
theorem draw_word (t h : Nat) : (t % 2 ^ 16 * 2 ^ 16 + h % 2 ^ 16 + 0x10000) % 2 ^ 32 =
    (t + 1) % 2 ^ 16 * 2 ^ 16 + h % 2 ^ 16 := by
  omega

theorem setHead_word (t h : Nat) :
    setHead (t % 2 ^ 16 * 2 ^ 16 + h % 2 ^ 16) (h % 2 ^ 16 + 1) =
      t % 2 ^ 16 * 2 ^ 16 + (h + 1) % 2 ^ 16 := by
  unfold setHead
  omega

/-- Fewer than `2 ^ 16` consecutive tickets are distinct. -/
theorem ticket_eq {h i : Nat} (hi : i < 2 ^ 16) (heq : (h + i) % 2 ^ 16 = h % 2 ^ 16) : i = 0 := by
  omega

/-! ### Reading the invariant -/

section Reading

variable {s : State n} {gone queue : List (Fin n)}

theorem Inv.length_le (h : Inv s gone queue) : queue.length ≤ n := by
  have := h.nodup.length_le_card
  rwa [Fintype.card_fin] at this

theorem Inv.index (h : Inv s gone queue) {c : Fin n} (hc : (s.pc c).queued = true) :
    ∃ i, i < queue.length ∧ queue[i]? = some c := by
  obtain ⟨i, hi, heq⟩ := List.getElem_of_mem ((h.queued c).mpr hc)
  exact ⟨i, hi, by rw [List.getElem?_eq_getElem hi, heq]⟩

/-- A CPU that holds the lock is first in the queue. -/
theorem Inv.first_of_holds (h : Inv s gone queue) {c : Fin n} (hc : (s.pc c).holds = true) :
    ∃ rest, queue = c :: rest := by
  have hq : (s.pc c).queued = true := by
    cases hpc : s.pc c <;> simp_all [Pc.holds, Pc.queued]
  obtain ⟨i, -, hget⟩ := h.index hq
  have hplaced := h.placed i c hget
  have hi : i = 0 := by
    cases hpc : s.pc c with
    | idle => simp [hpc, Pc.holds] at hc
    | linked v => simp [hpc, Pc.holds] at hc
    | waiting t => simp [hpc, Pc.holds] at hc
    | inside => simpa [hpc, Placed] using hplaced
    | leaving v => exact (by simpa [hpc, Placed] using hplaced : i = 0 ∧ _).1
  subst hi
  cases queue with
  | nil => simp at hget
  | cons d rest => exact ⟨rest, by simpa using hget⟩

theorem Inv.rest_waits {c d : Fin n} {rest : List (Fin n)} (h : Inv s gone (c :: rest))
    (hd : d ∈ rest) : (s.pc d).holds = false := by
  by_contra hne
  obtain ⟨rest', heq⟩ := h.first_of_holds (Bool.eq_true_of_not_eq_false hne)
  have hcd : c = d := (List.cons.inj heq).1
  exact (List.nodup_cons.mp h.nodup).1 (hcd ▸ hd)

theorem Inv.filter_rest {c : Fin n} {rest : List (Fin n)} (h : Inv s gone (c :: rest)) :
    rest.filter (fun d => (s.pc d).holds) = [] := by
  rw [List.filter_eq_nil_iff]
  intro d hd
  rw [h.rest_waits hd]
  decide

/-- The CPU whose ticket is served is first in the queue. -/
theorem Inv.first_of_served (h : Inv s gone queue) (hn : n < 2 ^ 16) {c : Fin n} {t : Nat}
    (hc : s.pc c = .waiting t) (ht : head s.lock = t) : ∃ rest, queue = c :: rest := by
  obtain ⟨i, hi, hget⟩ := h.index (by rw [hc]; rfl)
  have hticket : t = (gone.length + i) % 2 ^ 16 := by
    have := h.placed i c hget
    rwa [hc] at this
  rw [h.lock, head_word, hticket] at ht
  have hle := h.length_le
  have hzero := ticket_eq (by omega) ht.symm
  subst hzero
  cases queue with
  | nil => simp at hget
  | cons d rest => exact ⟨rest, by simpa using hget⟩

end Reading

/-! ### Every step keeps the queue -/

section Steps

variable {s : State n} {gone queue : List (Fin n)}

@[simp] theorem goto_pc (s : State n) (c : Fin n) (pc : Pc) :
    (s.goto c pc).pc = update s.pc c pc := rfl
@[simp] theorem goto_lock (s : State n) (c : Fin n) (pc : Pc) : (s.goto c pc).lock = s.lock := rfl
@[simp] theorem goto_took (s : State n) (c : Fin n) (pc : Pc) : (s.goto c pc).took = s.took := rfl
@[simp] theorem goto_entered (s : State n) (c : Fin n) (pc : Pc) :
    (s.goto c pc).entered = s.entered := rfl

@[simp] theorem enter_pc (s : State n) (c : Fin n) :
    (s.enter c).pc = update s.pc c .inside := rfl
@[simp] theorem enter_lock (s : State n) (c : Fin n) : (s.enter c).lock = s.lock := rfl
@[simp] theorem enter_took (s : State n) (c : Fin n) : (s.enter c).took = s.took := rfl
@[simp] theorem enter_entered (s : State n) (c : Fin n) :
    (s.enter c).entered = s.entered ++ [c] := rfl

@[simp] theorem sc_pc (s : State n) (c : Fin n) (v : Nat) : (s.sc c v).pc = s.pc := by
  cases s
  rfl
@[simp] theorem sc_lock (s : State n) (c : Fin n) (v : Nat) :
    (s.sc c v).lock = (v + 0x10000) % 2 ^ 32 := by
  rfl
@[simp] theorem sc_took (s : State n) (c : Fin n) (v : Nat) :
    (s.sc c v).took = s.took ++ [c] := by
  rfl
@[simp] theorem sc_entered (s : State n) (c : Fin n) (v : Nat) :
    (s.sc c v).entered = s.entered := by
  cases s
  rfl

theorem goto_pc_of_ne (s : State n) {c d : Fin n} (pc : Pc) (h : d ≠ c) :
    (s.goto c pc).pc d = s.pc d := update_of_ne h ..

theorem Inv.goto_out (h : Inv s gone queue) {c : Fin n} {pc : Pc}
    (hc : (s.pc c).queued = false) (hpc : pc.queued = false) : Inv (s.goto c pc) gone queue := by
  have hnot : c ∉ queue := by
    rw [h.queued, hc]
    decide
  have hsame : ∀ d ∈ queue, (s.goto c pc).pc d = s.pc d := by
    intro d hd
    exact goto_pc_of_ne s pc (by rintro rfl; exact hnot hd)
  refine ⟨h.took, h.lock, h.nodup, ?_, ?_, ?_⟩
  · intro d
    by_cases hdc : d = c
    · subst hdc
      simp [hnot, hpc]
    · rw [goto_pc_of_ne s pc hdc]
      exact h.queued d
  · intro i d hd
    rw [hsame d (List.mem_of_getElem? hd)]
    exact h.placed i d hd
  · rw [show (s.goto c pc).entered = s.entered from rfl, h.entered]
    congr 1
    apply List.filter_congr
    intro d hd
    rw [hsame d hd]

/-- A CPU without a ticket takes the place at the end of the queue. -/
theorem Inv.join (h : Inv s gone queue) {c : Fin n} {pc : Pc} {t : State n}
    (hnodup : (queue ++ [c]).Nodup) (hpc : t.pc = update s.pc c pc)
    (hqueued : pc.queued = true)
    (hplaced : Placed gone.length queue.length pc) (htook : t.took = s.took ++ [c])
    (hlock : t.lock =
      (gone.length + (queue ++ [c]).length) % 2 ^ 16 * 2 ^ 16 + gone.length % 2 ^ 16)
    (hentered : t.entered = s.entered ++ if pc.holds then [c] else []) :
    Inv t gone (queue ++ [c]) := by
  have hsame : ∀ d ∈ queue, update s.pc c pc d = s.pc d := by
    intro d hd
    have hne : d ≠ c := (List.nodup_append.mp hnodup).2.2 d hd c (List.mem_singleton_self c)
    exact update_of_ne hne ..
  refine ⟨?_, hlock, hnodup, ?_, ?_, ?_⟩
  · rw [htook, h.took, List.append_assoc]
  · intro d
    rw [hpc, List.mem_append, List.mem_singleton]
    by_cases hdc : d = c
    · subst hdc
      simp [hqueued]
    · rw [update_of_ne hdc, h.queued]
      simp [hdc]
  · intro i d hd
    rw [hpc]
    by_cases hi : i < queue.length
    · rw [List.getElem?_append_left hi] at hd
      rw [hsame d (List.mem_of_getElem? hd)]
      exact h.placed i d hd
    · rw [List.getElem?_append_right (by omega), List.getElem?_singleton] at hd
      split at hd
      · cases hd
        rw [update_self, show i = queue.length by omega]
        exact hplaced
      · cases hd
  · have hleft : queue.filter (fun d => (update s.pc c pc d).holds) =
        queue.filter fun d => (s.pc d).holds := by
      apply List.filter_congr
      intro d hd
      rw [hsame d hd]
    rw [hentered, hpc, h.entered, List.filter_append, hleft, List.filter_singleton,
      update_self, Bool.cond_eq_ite, List.append_assoc]

/-- A ticket is drawn at the end of the queue. -/
theorem Inv.draw (h : Inv s gone queue) (hn : n < 2 ^ 16) {c : Fin n} {v : Nat}
    (hc : s.pc c = .linked v) (hv : s.lock = v) : Inv (s.draw c v) gone (queue ++ [c]) := by
  have hnot : c ∉ queue := by
    rw [h.queued, hc]
    exact Bool.false_ne_true
  have hnodup : (queue ++ [c]).Nodup := by
    rw [← List.concat_eq_append]
    exact h.nodup.concat hnot
  have hlen : queue.length < n := by
    have := hnodup.length_le_card
    rw [Fintype.card_fin, List.length_append] at this
    exact this
  have hhead : head v = gone.length % 2 ^ 16 := by rw [← hv, h.lock, head_word]
  have htail : tail v = (gone.length + queue.length) % 2 ^ 16 := by rw [← hv, h.lock, tail_word]
  have hword : (v + 0x10000) % 2 ^ 32 =
      (gone.length + (queue ++ [c]).length) % 2 ^ 16 * 2 ^ 16 + gone.length % 2 ^ 16 := by
    rw [← hv, h.lock, draw_word, List.length_append, List.length_singleton, Nat.add_assoc]
  unfold State.draw
  by_cases heq : head v = tail v
  · -- nobody is queued, and `c` enters at once
    have hempty : queue = [] := by
      rw [hhead, htail] at heq
      exact List.length_eq_zero_iff.mp (ticket_eq (by omega) heq.symm)
    rw [if_pos heq]
    have hpc : ((s.sc c v).enter c).pc = update s.pc c .inside := by
      rw [enter_pc, sc_pc]
    apply h.join hnodup hpc
    · rfl
    · rw [hempty]
      rfl
    · rw [enter_took, sc_took]
    · rw [enter_lock, sc_lock, hword]
    · rw [enter_entered, sc_entered]
      rfl
  · rw [if_neg heq]
    have hpc : ((s.sc c v).goto c (.waiting (tail v))).pc =
        update s.pc c (.waiting (tail v)) := by
      rw [goto_pc, sc_pc]
    apply h.join hnodup hpc
    · rfl
    · exact htail
    · rw [goto_took, sc_took]
    · rw [goto_lock, sc_lock, hword]
    · rw [goto_entered, sc_entered]
      simp [Pc.holds]

/-- The first of the queue moves and keeps its place. -/
theorem Inv.goto_first {c : Fin n} {rest : List (Fin n)} (h : Inv s gone (c :: rest)) {pc : Pc}
    (hqueued : pc.queued = true) (hplaced : Placed gone.length 0 pc) {entered : List (Fin n)}
    (hentered : entered = gone ++ if pc.holds then [c] else []) :
    Inv { s.goto c pc with entered := entered } gone (c :: rest) := by
  have hnot : c ∉ rest := (List.nodup_cons.mp h.nodup).1
  refine ⟨h.took, h.lock, h.nodup, ?_, ?_, ?_⟩
  · intro d
    by_cases hdc : d = c
    · subst hdc
      simp [hqueued]
    · rw [h.queued]
      rw [goto_pc_of_ne s pc hdc]
  · intro i d hd
    cases i with
    | zero =>
      have hdc : c = d := by simpa using hd
      subst hdc
      rw [goto_pc, update_self]
      exact hplaced
    | succ i =>
      have hd' : rest[i]? = some d := by simpa using hd
      rw [goto_pc_of_ne s pc (by rintro rfl; exact hnot (List.mem_of_getElem? hd'))]
      exact h.placed (i + 1) d hd
  · show entered = gone ++ (c :: rest).filter fun d => ((s.goto c pc).pc d).holds
    have hrest : rest.filter (fun d => ((s.goto c pc).pc d).holds) = [] := by
      rw [← h.filter_rest]
      apply List.filter_congr
      intro d hd
      rw [goto_pc_of_ne s pc (by rintro rfl; exact hnot hd)]
    rw [hentered, List.filter_cons, hrest, goto_pc, update_self]

theorem Inv.store {c : Fin n} {rest : List (Fin n)} (h : Inv s gone (c :: rest)) {v : Nat}
    (hc : s.pc c = .leaving v) :
    Inv { s.goto c .idle with lock := setHead s.lock v } (gone ++ [c]) rest := by
  have hnot : c ∉ rest := (List.nodup_cons.mp h.nodup).1
  have hv : v = gone.length % 2 ^ 16 + 1 := by
    have := h.placed 0 c rfl
    rw [hc] at this
    exact this.2
  have hsame : ∀ d ∈ rest, (s.goto c .idle).pc d = s.pc d := by
    intro d hd
    exact goto_pc_of_ne s .idle (by rintro rfl; exact hnot hd)
  refine ⟨?_, ?_, (List.nodup_cons.mp h.nodup).2, ?_, ?_, ?_⟩
  · rw [List.append_assoc]
    exact h.took
  · show setHead s.lock v = _
    rw [h.lock, hv, setHead_word, List.length_append, List.length_cons, List.length_singleton,
      Nat.add_assoc, Nat.add_comm 1]
  · intro d
    by_cases hdc : d = c
    · subst hdc
      simp [hnot, Pc.queued]
    · rw [goto_pc_of_ne s .idle hdc, ← h.queued d, List.mem_cons]
      simp [hdc]
  · intro i d hd
    have hplaced := h.placed (i + 1) d (by simpa using hd)
    have hwaits := h.rest_waits (List.mem_of_getElem? hd)
    rw [hsame d (List.mem_of_getElem? hd)]
    cases hpc : s.pc d with
    | idle => simp [hpc, Placed] at hplaced
    | linked w => simp [hpc, Placed] at hplaced
    | inside => simp [hpc, Pc.holds] at hwaits
    | leaving w => simp [hpc, Pc.holds] at hwaits
    | waiting t =>
      rw [hpc] at hplaced
      show t = _
      rw [List.length_append, List.length_singleton, Nat.add_assoc, Nat.add_comm 1]
      exact hplaced
  · show s.entered = gone ++ [c] ++ rest.filter fun d => ((s.goto c .idle).pc d).holds
    have hrest : rest.filter (fun d => ((s.goto c .idle).pc d).holds) = [] := by
      rw [← h.filter_rest]
      apply List.filter_congr
      intro d hd
      rw [hsame d hd]
    rw [h.entered, hrest, List.append_nil, List.filter_cons, h.filter_rest, hc]
    rfl

theorem Step.inv {s' : State n} (hstep : Step s s') (hn : n < 2 ^ 16)
    (h : Inv s gone queue) : ∃ gone' queue', Inv s' gone' queue' := by
  cases hstep with
  | link c hc => exact ⟨_, _, h.goto_out (by rw [hc]; rfl) rfl⟩
  | lost c v hc => exact ⟨_, _, h.goto_out (by rw [hc]; rfl) rfl⟩
  | draw c v hc hv => exact ⟨_, _, h.draw hn hc hv⟩
  | spin c t hc ht => exact ⟨_, _, h⟩
  | enter c t hc ht =>
    obtain ⟨rest, rfl⟩ := h.first_of_served hn hc ht
    have hplaced : Placed gone.length 0 .inside := rfl
    refine ⟨_, _, h.goto_first rfl hplaced ?_⟩
    rw [h.entered, List.filter_cons, h.filter_rest, hc]
    simp [Pc.holds]
  | load c hc =>
    obtain ⟨rest, rfl⟩ := h.first_of_holds (by rw [hc]; rfl)
    have hplaced : Placed gone.length 0 (.leaving (head s.lock + 1)) := by
      rw [h.lock, head_word]
      exact ⟨rfl, rfl⟩
    refine ⟨_, _, h.goto_first rfl hplaced ?_⟩
    rw [h.entered, List.filter_cons, h.filter_rest, hc]
    rfl
  | store c v hc =>
    obtain ⟨rest, rfl⟩ := h.first_of_holds (by rw [hc]; rfl)
    exact ⟨_, _, h.store hc⟩

theorem run_inv (hn : n < 2 ^ 16) (h : Relation.ReflTransGen Step init s) :
    ∃ gone queue, Inv s gone queue := by
  induction h with
  | refl => exact ⟨[], [], init_inv⟩
  | tail _ hstep ih =>
    obtain ⟨gone, queue, hinv⟩ := ih
    exact hstep.inv hn hinv

end Steps

/-! ### Mutual exclusion and order -/

/-- The number of CPUs that hold the lock or wait for it. -/
def State.users (s : State n) : Nat :=
  (Finset.univ.filter fun c => (s.pc c).queued = true).card

theorem Inv.users_eq {s : State n} {gone queue : List (Fin n)} (h : Inv s gone queue) :
    s.users = queue.length := by
  have hset : (Finset.univ.filter fun c => (s.pc c).queued = true) = queue.toFinset := by
    ext c
    simp [h.queued c]
  rw [State.users, hset, List.toFinset_card_of_nodup h.nodup]

/-- **The ticket lock is a first-come first-served mutual-exclusion lock.** At any
point of any run, at most one CPU is between `spin_lock` and `spin_unlock`, the
distance from `head` to `tail` counts the CPUs that hold the lock or wait for it,
and the CPUs have entered in the order in which they drew their tickets. -/
theorem ticket_lock_fifo (hn : n < 2 ^ 16) {s : State n}
    (hrun : Relation.ReflTransGen Step init s) :
    (∀ c d, (s.pc c).holds = true → (s.pc d).holds = true → c = d) ∧
      (tail s.lock + (2 ^ 16 - head s.lock)) % 2 ^ 16 = s.users ∧
      s.entered <+: s.took := by
  obtain ⟨gone, queue, h⟩ := run_inv hn hrun
  refine ⟨?_, ?_, ?_⟩
  · intro c d hc hd
    obtain ⟨rest, hqc⟩ := h.first_of_holds hc
    obtain ⟨rest', hqd⟩ := h.first_of_holds hd
    exact (List.cons.inj (hqc.symm.trans hqd)).1
  · have hle := h.length_le
    rw [h.users_eq, h.lock, head_word, tail_word]
    omega
  · rw [h.entered, h.took, List.prefix_append_right_inj]
    cases queue with
    | nil => exact List.prefix_rfl
    | cons c rest =>
      rw [List.filter_cons, h.filter_rest]
      split
      · exact ⟨rest, rfl⟩
      · exact List.nil_prefix

/-- Two CPUs, of which the first has entered and the second is waiting. -/
theorem ticket_lock_fifo_two_cpus :
    ∃ s : State 2, Relation.ReflTransGen Step init s ∧ (s.pc 0).holds = true ∧
      (s.pc 1).queued = true ∧ (tail s.lock + (2 ^ 16 - head s.lock)) % 2 ^ 16 = s.users ∧
      s.entered <+: s.took := by
  let s₁ : State 2 := init.goto 0 (.linked 0)
  let s₂ : State 2 := s₁.draw 0 0
  let s₃ : State 2 := s₂.goto 1 (.linked s₂.lock)
  let s₄ : State 2 := s₃.draw 1 s₂.lock
  have h₁ : Step init s₁ := .link 0 rfl
  have h₂ : Step s₁ s₂ := .draw 0 0 rfl rfl
  have h₃ : Step s₂ s₃ := .link 1 rfl
  have h₄ : Step s₃ s₄ := .draw 1 s₂.lock rfl rfl
  have hrun : Relation.ReflTransGen Step init s₄ := (((Relation.ReflTransGen.single h₁).tail h₂).tail h₃).tail h₄
  exact ⟨s₄, hrun, by decide, by decide, (ticket_lock_fifo (by decide) hrun).2⟩

/-! ### `spin_is_locked` -/

/-- `spin_is_locked`, whose result is an `unsigned int`. -/
def spinIsLocked (lock : Nat) : Nat := lock

/-- With nobody in the queue, both halves are the number of tickets drawn so far. -/
theorem Inv.lock_of_free {s : State n} {gone : List (Fin n)} (h : Inv s gone []) :
    s.lock = s.took.length % 2 ^ 16 * (2 ^ 16 + 1) := by
  have htook : s.took.length = gone.length := by rw [h.took, List.append_nil]
  rw [h.lock, htook, List.length_nil]
  omega

/-- With somebody in the queue the halves differ. -/
theorem Inv.lock_ne_zero {s : State n} {c : Fin n} {gone rest : List (Fin n)}
    (h : Inv s gone (c :: rest)) (hn : n < 2 ^ 16) : s.lock ≠ 0 := by
  have hle := h.length_le
  rw [h.lock]
  rw [List.length_cons] at hle ⊢
  omega

/-- **`spin_is_locked`** tells whether some CPU holds the lock or waits for it, exactly if some
CPU does, or the number of tickets drawn so far is a multiple of `2 ^ 16`. -/
theorem spin_is_locked_exact_iff (hn : n < 2 ^ 16) {s : State n}
    (hrun : Relation.ReflTransGen Step init s) :
    (spinIsLocked s.lock ≠ 0 ↔ ∃ c, (s.pc c).queued = true) ↔
      (∃ c, (s.pc c).queued = true) ∨ s.took.length % 2 ^ 16 = 0 := by
  obtain ⟨gone, queue, h⟩ := run_inv hn hrun
  cases queue with
  | nil =>
    have hnone : ¬ ∃ c, (s.pc c).queued = true := by
      rintro ⟨c, hc⟩
      exact List.not_mem_nil ((h.queued c).mpr hc)
    have hlock := h.lock_of_free
    simp only [iff_false_intro hnone, iff_false, false_or, not_not, spinIsLocked]
    omega
  | cons c rest =>
    have hsome : ∃ c, (s.pc c).queued = true := ⟨c, (h.queued c).mp List.mem_cons_self⟩
    exact iff_of_true (iff_of_true (h.lock_ne_zero hn) hsome) (.inl hsome)

/-- A lock that is held. -/
theorem spin_is_locked_exact_held :
    ∃ s : State 1, Relation.ReflTransGen Step init s ∧ (s.pc 0).holds = true ∧
      (spinIsLocked s.lock ≠ 0 ↔ ∃ c, (s.pc c).queued = true) := by
  let s₁ : State 1 := init.goto 0 (.linked 0)
  have h₁ : Step init s₁ := .link 0 rfl
  have h₂ : Step s₁ (s₁.draw 0 0) := .draw 0 0 rfl rfl
  have hrun : Relation.ReflTransGen Step init (s₁.draw 0 0) :=
    (Relation.ReflTransGen.single h₁).tail h₂
  exact ⟨_, hrun, rfl, (spin_is_locked_exact_iff (by decide) hrun).mpr (.inl ⟨0, rfl⟩)⟩

/-- A CPU has taken the lock and released it: the lock is free, and `spin_is_locked` says that
it is not. -/
theorem spin_is_locked_after_release :
    ∃ s : State 1, Relation.ReflTransGen Step init s ∧ s.pc 0 = .idle ∧
      spinIsLocked s.lock = 0x10001 ∧
      ¬ (spinIsLocked s.lock ≠ 0 ↔ ∃ c, (s.pc c).queued = true) := by
  let s₁ : State 1 := init.goto 0 (.linked 0)
  let s₂ : State 1 := s₁.draw 0 0
  let s₃ : State 1 := s₂.goto 0 (.leaving (head s₂.lock + 1))
  have h₁ : Step init s₁ := .link 0 rfl
  have h₂ : Step s₁ s₂ := .draw 0 0 rfl rfl
  have h₃ : Step s₂ s₃ := .load 0 rfl
  have h₄ : Step s₃ { s₃.goto 0 .idle with lock := setHead s₃.lock (head s₂.lock + 1) } :=
    .store 0 _ rfl
  refine ⟨_, (((Relation.ReflTransGen.single h₁).tail h₂).tail h₃).tail h₄, rfl, by decide, ?_⟩
  intro hexact
  obtain ⟨c, hc⟩ := hexact.mp (by decide)
  rw [Subsingleton.elim c 0] at hc
  cases hc

end AimKernel.TicketLock
