import AimKernel.Mm.UvmCalls

/-!
# AimKernel.Mm.UvmSpecs

Specifications of the user memory calls on the books.

First the two searches in the VMA list: what `__find_vma_before` returns is a gap that
fits the range, and what `__find_continuous_vma` returns is a stretch of VMAs that
covers it, provided that the sentinel is not mistaken for one of them
(`Sentinel.Misses`). Then the calls, each of which keeps `Good` and neither faults nor
changes which address spaces there are, `mm_new` and `mm_destroy` apart.
-/

namespace AimKernel

open Function (update update_eq_self update_idem update_of_ne update_self)

theorem maxPages_val : maxPages = 2 ^ 20 := by
  unfold maxPages
  rfl

/-! ### Searching the list -/

section Search

variable {M : PageMap} {vmas : List Vma} {sent : Sentinel} {addr len : Nat}

/-- A VMA list in order: nothing is empty, ends past the top or overlaps. -/
structure VmaOrder (vmas : List Vma) : Prop where
  sorted : vmas.Pairwise fun x y => x.start + x.size ≤ y.start
  size : ∀ x ∈ vmas, 0 < x.size
  bound : ∀ x ∈ vmas, x.start + x.size < 2 ^ 32

theorem Mm.OK.ordered (h : Mm.OK M vmas) : VmaOrder vmas where
  sorted := h.sorted.imp_of_mem fun hx _ hxy => by rw [(h.vma _ hx).size]; exact hxy
  size x hx := by
    rw [(h.vma x hx).size]
    decide
  bound x hx := by
    rw [(h.vma x hx).size]
    exact (h.vma x hx).bound

/-- Some VMA of the list overlaps the range. -/
def Overlaps (vmas : List Vma) (addr len : Nat) : Prop :=
  ∃ x ∈ vmas, x.start < addr + len ∧ addr < x.start + x.size

/-- The VMAs before and behind a range. -/
structure Gap (l r : List Vma) (addr len : Nat) : Prop where
  below : ∀ y ∈ l, y.start + y.size ≤ addr
  above : ∀ y ∈ r, addr + len ≤ y.start

/-- What the search compares with the range: the end of the predecessor, be it the
sentinel. -/
theorem findVmaBefore_eq (sent : Sentinel) (hne : vmas ≠ []) (hend : addr + len < 2 ^ 32) :
    ∃ l r, vmas = l ++ r ∧ (∀ y ∈ l, y.start < addr + len) ∧
      (∀ y, r.head? = some y → addr + len ≤ y.start) ∧
      findVmaBefore sent vmas addr len =
        if addr < (l.getLast?.map fun y => u32 (y.start + y.size)).getD
          (u32 (sent.start + sent.size)) then none else some l.length := by
  have hend' : u32 (addr + len) = addr + len := Nat.mod_eq_of_lt hend
  have hempty : vmas.isEmpty = false := by
    rw [List.isEmpty_eq_false_iff]
    exact hne
  unfold findVmaBefore
  rw [if_neg (by rw [hempty]; decide), hend']
  generalize hk : vmas.findIdx (fun vma => decide (addr + len ≤ vma.start)) = k
  have hle : k ≤ vmas.length := hk ▸ List.findIdx_le_length
  have hlength : (vmas.take k).length = k := List.length_take_of_le hle
  refine ⟨vmas.take k, vmas.drop k, (List.take_append_drop k vmas).symm, ?_, ?_, ?_⟩
  · intro y hy
    obtain ⟨i, hi, rfl⟩ := List.mem_iff_getElem.mp hy
    rw [hlength] at hi
    rw [List.getElem_take]
    have hnot := List.not_of_lt_findIdx (hk.symm ▸ hi)
    simpa using hnot
  · intro y hy
    rw [List.head?_drop] at hy
    obtain ⟨hlt, rfl⟩ := List.getElem?_eq_some_iff.mp hy
    have hfirst := List.findIdx_getElem (w := hk.symm ▸ hlt)
    simpa [hk] using hfirst
  · rw [hlength]
    dsimp only
    cases k with
    | zero => rfl
    | succ j =>
      have hlast : (vmas.take (j + 1)).getLast? = vmas[j]? := by
        rw [List.getLast?_eq_getElem?, hlength, List.getElem?_take_of_lt (by omega)]
        rfl
      simp [hlast, List.getElem?_eq_getElem (show j < vmas.length from hle)]

/-- **`__find_vma_before`** finds the gap for a range that is free, unless the range lies
below all VMAs and what is read through the sentinel ends behind its start. -/
theorem findVmaBefore_gap (sent : Sentinel) (hord : VmaOrder vmas)
    (hend : addr + len < 2 ^ 32) (hfree : ¬ Overlaps vmas addr len) :
    ∃ l r, vmas = l ++ r ∧ Gap l r addr len ∧
      findVmaBefore sent vmas addr len =
        if vmas ≠ [] ∧ l = [] ∧ addr < u32 (sent.start + sent.size) then none
        else some l.length := by
  by_cases hne : vmas = []
  · refine ⟨[], [], hne, ⟨by simp, by simp⟩, ?_⟩
    rw [if_neg fun h => h.1 hne, hne]
    rfl
  obtain ⟨l, r, hvmas, hl, hr, hfind⟩ := findVmaBefore_eq sent hne hend
  have hbelow : ∀ y ∈ l, y.start + y.size ≤ addr := by
    intro y hy
    by_contra hlt
    exact hfree ⟨y, hvmas ▸ List.mem_append_left r hy, hl y hy, Nat.lt_of_not_le hlt⟩
  have habove : ∀ y ∈ r, addr + len ≤ y.start := by
    cases r with
    | nil => exact fun y hy => nomatch hy
    | cons z r =>
      have hz := hr z rfl
      have hsorted := (List.pairwise_append.mp (hvmas ▸ hord.sorted)).2.1
      refine List.forall_mem_cons.mpr ⟨hz, fun y hy => ?_⟩
      have := List.rel_of_pairwise_cons hsorted hy
      omega
  refine ⟨l, r, hvmas, ⟨hbelow, habove⟩, hfind.trans ?_⟩
  cases hlast : l.getLast? with
  | none =>
    have hnil := List.getLast?_eq_none_iff.mp hlast
    exact if_congr ⟨fun h => ⟨hne, hnil, h⟩, fun h => h.2.2⟩ rfl rfl
  | some y =>
    have hy := List.mem_of_getLast? hlast
    have hlne : l ≠ [] := by
      rintro rfl
      cases hy
    have hyend : u32 (y.start + y.size) = y.start + y.size :=
      Nat.mod_eq_of_lt (hord.bound y (hvmas ▸ List.mem_append_left r hy))
    have := hbelow y hy
    rw [Option.map_some, Option.getD_some, hyend, if_neg (by omega), if_neg fun h => hlne h.2.1]

/-- **`__find_vma_before`** refuses a range that overlaps a VMA. -/
theorem findVmaBefore_overlap (hord : VmaOrder vmas) (hend : addr + len < 2 ^ 32)
    (hover : Overlaps vmas addr len) : findVmaBefore sent vmas addr len = none := by
  obtain ⟨x, hx, hlo, hhi⟩ := hover
  have hne : vmas ≠ [] := by
    rintro rfl
    cases hx
  obtain ⟨l, r, hvmas, -, hr, hfind⟩ := findVmaBefore_eq sent hne hend
  obtain ⟨hsl, hsr, hlr⟩ := List.pairwise_append.mp (hvmas ▸ hord.sorted)
  -- the VMA comes before the place
  have hxl : x ∈ l := by
    rw [hvmas] at hx
    refine (List.mem_append.mp hx).resolve_right fun hxr => ?_
    cases r with
    | nil => cases hxr
    | cons z r =>
      have hz := hr z rfl
      rcases List.mem_cons.mp hxr with rfl | hxr
      · omega
      · have := List.rel_of_pairwise_cons hsr hxr
        omega
  have hlne : l ≠ [] := List.ne_nil_of_mem hxl
  have hlast := List.getLast?_eq_some_getLast hlne
  generalize hy : l.getLast hlne = y at hlast
  have hymem : y ∈ l := hy ▸ List.getLast_mem hlne
  have hyend : u32 (y.start + y.size) = y.start + y.size :=
    Nat.mod_eq_of_lt (hord.bound y (hvmas ▸ List.mem_append_left r hymem))
  -- so the predecessor ends no earlier
  have hle : x.start + x.size ≤ y.start + y.size := by
    rw [← List.dropLast_append_getLast hlne, hy] at hxl hsl
    rcases List.mem_append.mp hxl with hx' | hx'
    · have := (List.pairwise_append.mp hsl).2.2 x hx' y List.mem_cons_self
      omega
    · exact List.mem_singleton.mp hx' ▸ Nat.le_refl _
  rw [hfind, hlast, Option.map_some, Option.getD_some, hyend, if_pos (by omega)]

/-- What **`__find_vma_before`** finds is a gap. -/
theorem findVmaBefore_spec (hord : VmaOrder vmas) (hend : addr + len < 2 ^ 32) {place : Nat}
    (h : findVmaBefore sent vmas addr len = some place) :
    ∃ l r, vmas = l ++ r ∧ place = l.length ∧ Gap l r addr len := by
  by_cases hover : Overlaps vmas addr len
  · rw [findVmaBefore_overlap hord hend hover] at h
    cases h
  · obtain ⟨l, r, hvmas, hgap, hfind⟩ := findVmaBefore_gap sent hord hend hover
    rw [hfind] at h
    split at h
    · cases h
    · exact ⟨l, r, hvmas, (Option.some.inj h).symm, hgap⟩

/-- What is read through the sentinel does not match a page of the range. -/
def Sentinel.Misses (sent : Sentinel) (addr len : Nat) : Prop :=
  ∀ j, j * pageSize < len → sent.start ≠ addr + j * pageSize

/-- The VMAs of a list that start at consecutive pages from `addr` on. -/
def Covers (xs : List Vma) (addr : Nat) : Prop :=
  ∀ j y, xs[j]? = some y → y.start = addr + j * pageSize

theorem Covers.cons_iff {x : Vma} {xs : List Vma} {v : Nat} :
    Covers (x :: xs) v ↔ x.start = v ∧ Covers xs (v + pageSize) := by
  constructor
  · intro h
    refine ⟨by simpa using h 0 x rfl, fun j y hy => ?_⟩
    rw [h (j + 1) y hy, Nat.add_mul]
    omega
  · rintro ⟨hx, h⟩ j y hy
    cases j with
    | zero =>
      cases hy
      rw [hx, Nat.zero_mul, Nat.add_zero]
    | succ j =>
      rw [h j y hy, Nat.add_mul]
      omega

/-- The first `n` VMAs of `ys` start at consecutive pages from `v` on; or all of them do,
there is one too few, and what is read through the sentinel passes for it. -/
def Follows (sent : Sentinel) (ys : List Vma) (v n : Nat) : Prop :=
  (∃ xs r, ys = xs ++ r ∧ xs.length = n ∧ Covers xs v) ∨
    ys.length + 1 = n ∧ Covers ys v ∧ sent.start = v + ys.length * pageSize

theorem follows_zero (sent : Sentinel) (ys : List Vma) (v : Nat) : Follows sent ys v 0 :=
  .inl ⟨[], ys, rfl, rfl, by simp [Covers]⟩

theorem follows_nil {v n : Nat} : Follows sent [] v (n + 1) ↔ n = 0 ∧ sent.start = v := by
  constructor
  · rintro (⟨xs, r, hnil, hlength, -⟩ | ⟨hlength, -, hsent⟩)
    · obtain ⟨rfl, -⟩ := List.append_eq_nil_iff.mp hnil.symm
      cases hlength
    · simp only [List.length_nil, Nat.zero_mul, Nat.add_zero] at hlength hsent
      exact ⟨by omega, hsent⟩
  · rintro ⟨rfl, hsent⟩
    exact .inr ⟨rfl, by simp [Covers], by simpa using hsent⟩

theorem follows_cons {y : Vma} {ys : List Vma} {v n : Nat} :
    Follows sent (y :: ys) v (n + 1) ↔ y.start = v ∧ Follows sent ys (v + pageSize) n := by
  constructor
  · rintro (⟨xs, r, heq, hlength, hcovers⟩ | ⟨hlength, hcovers, hsent⟩)
    · cases xs with
      | nil => cases hlength
      | cons x xs =>
        obtain ⟨rfl, rfl⟩ := List.cons.inj heq
        obtain ⟨hy, hxs⟩ := Covers.cons_iff.mp hcovers
        exact ⟨hy, .inl ⟨xs, r, rfl, by simpa using hlength, hxs⟩⟩
    · obtain ⟨hy, hys⟩ := Covers.cons_iff.mp hcovers
      refine ⟨hy, .inr ⟨by simpa using hlength, hys, ?_⟩⟩
      rw [hsent, List.length_cons, Nat.add_mul]
      omega
  · rintro ⟨hy, ⟨xs, r, rfl, hlength, hcovers⟩ | ⟨hlength, hcovers, hsent⟩⟩
    · exact .inl ⟨y :: xs, r, rfl, by simpa using hlength, Covers.cons_iff.mpr ⟨hy, hcovers⟩⟩
    · refine .inr ⟨by simpa using hlength, Covers.cons_iff.mpr ⟨hy, hcovers⟩, ?_⟩
      rw [hsent, List.length_cons, Nat.add_mul]
      omega

/-- The loop of `__find_continuous_vma`. Past the sentinel it comes to the first VMA, which
does not start behind the range. -/
theorem continuousLoop_iff {n fuel i k : Nat} (hlen : len = i + n * pageSize) (hfuel : n ≤ fuel)
    (hi : 0 < i) (hk : k < vmas.length) (hend : addr + len < 2 ^ 32)
    (hfirst : ∀ y, vmas[0]? = some y → y.start ≤ addr) :
    ∃ b, continuousLoop sent vmas addr len fuel i k = .ok b ∧
      (b = true ↔ Follows sent (vmas.drop (k + 1)) (addr + i) n) := by
  induction n generalizing fuel i k with
  | zero =>
    refine ⟨true, ?_, fun _ => follows_zero .., fun _ => rfl⟩
    rw [continuousLoop.eq_def, if_neg (by omega)]
    rfl
  | succ n ih =>
    have hpos : 0 < pageSize := by decide
    obtain ⟨fuel, rfl⟩ : ∃ f, fuel = f + 1 := ⟨fuel - 1, by omega⟩
    rw [Nat.add_mul, Nat.one_mul] at hlen
    have hnext : nextEntry vmas k = k + 1 := if_neg (by omega)
    have haddr : u32 (addr + i) = addr + i := Nat.mod_eq_of_lt (by omega)
    have hstep : u32 (i + pageSize) = i + pageSize := Nat.mod_eq_of_lt (by omega)
    rw [continuousLoop, if_pos (by omega)]
    dsimp only
    rw [hnext, haddr, hstep]
    by_cases hk' : k + 1 < vmas.length
    · have hstart : startAt sent vmas (k + 1) = (vmas.get ⟨k + 1, hk'⟩).start := by
        simp [startAt, List.getElem?_eq_getElem hk']
      have hdrop : vmas.drop (k + 1) = vmas.get ⟨k + 1, hk'⟩ :: vmas.drop (k + 1 + 1) :=
        List.drop_eq_getElem_cons hk'
      rw [hstart, hdrop, follows_cons]
      by_cases hmatch : (vmas.get ⟨k + 1, hk'⟩).start = addr + i
      · rw [if_neg (not_not.mpr hmatch)]
        obtain ⟨b, hb, hiff⟩ := ih (i := i + pageSize) (by omega)
          (Nat.le_of_succ_le_succ hfuel) (by omega) hk'
        refine ⟨b, hb, hiff.trans ?_⟩
        rw [Nat.add_assoc addr i pageSize]
        exact ⟨fun h => ⟨hmatch, h⟩, And.right⟩
      · rw [if_pos hmatch]
        exact ⟨false, rfl, fun h => absurd h Bool.false_ne_true, fun h => absurd h.1 hmatch⟩
    · -- the sentinel comes after the last VMA
      have hlast : k + 1 = vmas.length := by omega
      have hstart : startAt sent vmas (k + 1) = sent.start := by
        simp [startAt, hlast]
      rw [hstart, List.drop_eq_nil_of_le (by omega), follows_nil]
      by_cases hmatch : sent.start = addr + i
      · rw [if_neg (not_not.mpr hmatch)]
        cases n with
        | zero =>
          refine ⟨true, ?_, fun _ => ⟨rfl, hmatch⟩, fun _ => rfl⟩
          rw [continuousLoop.eq_def, if_neg (by omega)]
          rfl
        | succ n =>
          obtain ⟨fuel, rfl⟩ : ∃ f, fuel = f + 1 := ⟨fuel - 1, by omega⟩
          rw [Nat.add_mul, Nat.one_mul] at hlen
          have hwrap : nextEntry vmas (k + 1) = 0 := if_pos hlast
          have haddr' : u32 (addr + (i + pageSize)) = addr + (i + pageSize) :=
            Nat.mod_eq_of_lt (by omega)
          have hzero : vmas[0]? = some (vmas.get ⟨0, by omega⟩) :=
            List.getElem?_eq_getElem (by omega)
          have hstart' : startAt sent vmas 0 = (vmas.get ⟨0, by omega⟩).start := by
            simp [startAt, hzero]
          have := hfirst _ hzero
          refine ⟨false, ?_, fun h => absurd h Bool.false_ne_true, fun h => by omega⟩
          rw [continuousLoop, if_pos (by omega)]
          dsimp only
          rw [hwrap, hstart', haddr', if_pos (by omega)]
          rfl
      · rw [if_pos hmatch]
        exact ⟨false, rfl, fun h => absurd h Bool.false_ne_true, fun h => absurd h.2 hmatch⟩

/-- **`__find_continuous_vma`** finds the VMA at the start of the range if the VMAs of the
other pages follow it, or seem to. -/
theorem findContinuousVma_iff (sent : Sentinel) (hok : Mm.OK M vmas)
    (haddr : addr % pageSize = 0) (hlen : len % pageSize = 0) (hend : addr + len < 2 ^ 32) :
    ∃ found, findContinuousVma sent vmas addr len = .ok found ∧ ∀ k, found = some k ↔
      ∃ l x ys, vmas = l ++ x :: ys ∧ k = l.length ∧ x.start = addr ∧
        Follows sent ys (addr + pageSize) (len / pageSize - 1) := by
  have hpos : 0 < pageSize := by decide
  have hmod := Nat.div_add_mod len pageSize
  rw [hlen, Nat.add_zero] at hmod
  unfold findContinuousVma
  rw [if_neg (not_not.mpr haddr), if_neg (not_not.mpr hlen)]
  generalize hk : vmas.findIdx (fun vma => vma.start == addr) = k
  -- where the VMA is found is the only place where there is one
  have hplace : ∀ {l x ys}, vmas = l ++ x :: ys → x.start = addr → k = l.length := by
    rintro l x ys rfl rfl
    have hl : ∀ y ∈ l, (y.start == x.start) = false := by
      intro y hy
      exact beq_false_of_ne (hok.start_ne (List.mem_append_left ys hy))
    rw [← hk, List.findIdx_append]
    simp [List.findIdx_cons, List.findIdx_eq_length_of_false hl]
  by_cases hnone : k = vmas.length
  · rw [if_pos hnone]
    refine ⟨none, rfl, fun j => ⟨(fun h => nomatch h), ?_⟩⟩
    rintro ⟨l, x, ys, hvmas, -, hx, -⟩
    have hlength := hplace hvmas hx
    rw [hnone, hvmas, List.length_append, List.length_cons] at hlength
    omega
  rw [if_neg hnone]
  have hlt : k < vmas.length := Nat.lt_of_le_of_ne (hk ▸ List.findIdx_le_length) hnone
  have hfirst : (vmas.get ⟨k, hlt⟩).start = addr := by
    have := List.findIdx_getElem (w := by rw [hk]; exact hlt)
    simpa [hk] using this
  have hsplit := (List.take_append_drop k vmas).symm
  rw [List.drop_eq_getElem_cons hlt] at hsplit
  have hlength : (vmas.take k).length = k := List.length_take_of_le (Nat.le_of_lt hlt)
  have hloop : ∃ b, continuousLoop sent vmas addr len maxPages pageSize k = .ok b ∧
      (b = true ↔ Follows sent (vmas.drop (k + 1)) (addr + pageSize) (len / pageSize - 1)) := by
    by_cases hshort : len ≤ pageSize
    · have hcount : len / pageSize - 1 = 0 := by
        have := Nat.div_le_div_right (c := pageSize) hshort
        rw [Nat.div_self hpos] at this
        omega
      refine ⟨true, ?_, fun _ => hcount ▸ follows_zero .., fun _ => rfl⟩
      rw [continuousLoop.eq_def, if_neg (by omega)]
      rfl
    · refine continuousLoop_iff ?_ ?_ hpos hlt hend ?_
      · have hone : 1 ≤ len / pageSize := (Nat.one_le_div_iff hpos).mpr (by omega)
        rw [Nat.sub_mul, Nat.one_mul, Nat.mul_comm, hmod]
        omega
      · rw [maxPages_val]
        unfold pageSize
        omega
      · intro y hy
        obtain ⟨h0, rfl⟩ := List.getElem?_eq_some_iff.mp hy
        by_cases hk0 : k = 0
        · subst hk0
          exact Nat.le_of_eq hfirst
        · have := List.pairwise_iff_getElem.mp hok.sorted 0 k h0 hlt (by omega)
          change _ ≤ (vmas.get ⟨k, hlt⟩).start at this
          omega
  obtain ⟨b, hb, hiff⟩ := hloop
  rw [hb]
  refine ⟨if b then some k else none, rfl, fun j => ?_⟩
  constructor
  · intro hj
    cases b with
    | false => cases hj
    | true =>
      cases hj
      exact ⟨vmas.take k, vmas.get ⟨k, hlt⟩, vmas.drop (k + 1), hsplit, hlength.symm, hfirst,
        hiff.mp rfl⟩
  · rintro ⟨l, x, ys, hvmas, hj, hx, hfollows⟩
    have hkl := hplace hvmas hx
    have hys : vmas.drop (k + 1) = ys := by
      rw [hvmas, hkl, List.drop_append]
      simp
    rw [← hys] at hfollows
    rw [if_pos (hiff.mpr hfollows), hj, hkl]

/-- What **`__find_continuous_vma`** finds is a stretch of VMAs that covers the range, if
the sentinel does not match. -/
theorem findContinuousVma_spec (hok : Mm.OK M vmas) (haddr : addr % pageSize = 0)
    (hlen : len % pageSize = 0) (hend : addr + len < 2 ^ 32) (hsent : sent.Misses addr len) :
    ∃ found, findContinuousVma sent vmas addr len = .ok found ∧ ∀ k, found = some k →
      ∃ l xs r, vmas = l ++ (xs ++ r) ∧ k = l.length ∧ xs.length * pageSize = len ∧
        Covers xs addr := by
  obtain ⟨found, hfound, hiff⟩ := findContinuousVma_iff sent hok haddr hlen hend
  have hmod := Nat.div_add_mod len pageSize
  rw [hlen, Nat.add_zero, Nat.mul_comm] at hmod
  refine ⟨found, hfound, fun k hk => ?_⟩
  obtain ⟨l, x, ys, hvmas, hkl, hx, hfollows⟩ := (hiff k).mp hk
  by_cases hzero : len = 0
  · exact ⟨l, [], x :: ys, hvmas, hkl, by simp [hzero], by simp [Covers]⟩
  have hone : len / pageSize - 1 + 1 = len / pageSize :=
    Nat.sub_add_cancel (Nat.pos_of_ne_zero fun h0 => hzero (by rw [← hmod, h0, Nat.zero_mul]))
  rcases hfollows with ⟨xs, r, rfl, hcount, hcovers⟩ | ⟨hcount, -, hmatch⟩
  · refine ⟨l, x :: xs, r, hvmas, hkl, ?_, Covers.cons_iff.mpr ⟨hx, hcovers⟩⟩
    rw [List.length_cons, hcount, hone, hmod]
  · -- a match of the sentinel at the last page
    refine absurd ?_ (hsent (ys.length + 1) ?_)
    · rw [hmatch, Nat.add_mul]
      omega
    · have : (ys.length + 1) * pageSize < len / pageSize * pageSize :=
        Nat.mul_lt_mul_of_pos_right (by omega) (by decide)
      omega

end Search

section Specs

variable {base baseObjs : List Nat} {s : Vm Books} {a : Nat} {mm : Mm} {l r : List Vma}

variable {addr flags fuel len n place : Nat} {sent : Sentinel} {M : PageMap} {rest : List Vma}

/-! ### Permissions -/

/-- The flags are all that the loop of `set_uvm_perm` writes in a VMA. -/
theorem map_body_modify (vmas : List Vma) (k flags : Nat) :
    (vmas.modify k fun vma => { vma with flags := flags }).map Vma.body = vmas.map Vma.body := by
  apply List.ext_getElem?
  intro i
  rw [List.getElem?_map, List.getElem?_map, List.getElem?_modify]
  cases vmas[i]? with
  | none => rfl
  | some x => by_cases hk : k = i <;> simp [hk, Vma.body]

/-- The VMA list after `n` rounds of the loop of `set_uvm_perm`: they all write to the VMA
with index `k`. -/
def reflag (k n flags : Nat) (vmas : List Vma) : List Vma :=
  if n = 0 then vmas else vmas.modify k fun vma => { vma with flags := flags }

theorem reflag_modify (k n flags : Nat) (vmas : List Vma) :
    reflag k n flags (vmas.modify k fun vma => { vma with flags := flags }) =
      reflag k (n + 1) flags vmas := by
  unfold reflag
  split
  · rfl
  · rw [List.modify_modify_eq]
    rfl

/-- `M'` is `M` with the permission of `n` pages from `addr` on set to what `flags` ask for. -/
def Permits (M M' : PageMap) (addr n flags : Nat) : Prop :=
  ∀ v, M'.pte v = if ∃ j < n, v = addr + j * pageSize then ptePaddr (M.pte v) ||| pgtablePerm flags
    else M.pte v

theorem Permits.cons {M1 M' : PageMap}
    (hone : M1.pte = update M.pte addr (ptePaddr (M.pte addr) ||| pgtablePerm flags))
    (h : Permits M1 M' (addr + pageSize) n flags) : Permits M M' addr (n + 1) flags := by
  have hpos : 0 < pageSize := by decide
  have hlater : ∀ j, addr + pageSize + j * pageSize = addr + (j + 1) * pageSize := by
    intro j
    rw [Nat.add_mul]
    omega
  intro v
  rw [h v]
  by_cases hv : ∃ j < n, v = addr + pageSize + j * pageSize
  · obtain ⟨j, hj, rfl⟩ := hv
    rw [if_pos ⟨j, hj, rfl⟩, if_pos ⟨j + 1, by omega, hlater j⟩, hone,
      update_of_ne (by omega)]
  · rw [if_neg hv, hone]
    by_cases hfirst : v = addr
    · rw [hfirst, update_self, if_pos ⟨0, by omega, by simp⟩]
    · rw [update_of_ne hfirst, if_neg]
      rintro ⟨j, hj, rfl⟩
      cases j with
      | zero => simp at hfirst
      | succ j => exact hv ⟨j, by omega, (hlater j).symm⟩

/-- **The loop of `set_uvm_perm`** over pages that all have a VMA. -/
theorem wp_setUvmPermLoop {k i : Nat} (h : Good base baseObjs s.desk.mms s)
    (hmm : s.desk.mms a = some mm) (hM : s.pages.indexes mm.pgindex = some M)
    (hpages : ∀ j, j < n → ∃ x ∈ mm.vmas, x.start = addr + j * pageSize)
    (hlen : len = i + n * pageSize) (hlt : len < 2 ^ 32) (hend : addr + n * pageSize < 2 ^ 32)
    (hfuel : n ≤ fuel) :
    wp (setUvmPermLoop Books.ops a k len flags fuel i addr) (fun retcode s' => retcode = 0 ∧
      Relist base baseObjs a mm (reflag k n flags mm.vmas) s s' ∧ ∃ M', Permits M M' addr n flags ∧
        s'.pages.indexes = update s.pages.indexes mm.pgindex (some M')) s := by
  have hpos : 0 < pageSize := by decide
  induction n generalizing s mm fuel i addr M with
  | zero =>
    rw [setUvmPermLoop.eq_def, if_neg (by omega), wp_pure]
    refine ⟨rfl, .refl h hmm rfl, M, fun v => ?_, ?_⟩
    · rw [if_neg (by simp)]
    · rw [← hM, update_eq_self]
  | succ n ih =>
    rw [Nat.add_mul, Nat.one_mul] at hlen hend
    obtain ⟨fuel, rfl⟩ : ∃ f, fuel = f + 1 := ⟨fuel - 1, by omega⟩
    have hok := h.inv.spaces.ok hmm hM
    obtain ⟨x, hx, hstart⟩ := hpages 0 (by omega)
    subst hstart
    have hframe := (hok.vma x hx).frame
    generalize hnew : mm.vmas.modify k (fun vma => { vma with flags := flags }) = vmas
    have hbody : vmas.map Vma.body = mm.vmas.map Vma.body := hnew ▸ map_body_modify mm.vmas k flags
    rw [setUvmPermLoop, if_pos (by omega), wp_bind]
    apply wp_getMm hmm
    rw [wp_bind, wp_setMm, hnew, wp_bind, wp_onPages]
    apply wp_books_setPagesPerm h.real hM (hok.vma x hx).page ((hok.leaf _).mpr ⟨x, hx, rfl⟩)
    intro M' t hreal hpte hleaf hplain hindexes hfreed
    have hentry : ptePaddr (M.pte x.start) ||| pgtablePerm flags = pteFor x.pages.paddr flags := by
      have hlt : x.pages.paddr < 2 ^ 32 := Nat.lt_trans hframe.lt_kernBase (by decide)
      rw [(hok.mapped x hx).2, pteFor, show u32 x.pages.paddr = _ from Nat.mod_eq_of_lt hlt]
    have hpermit : Mm.OK M' mm.vmas := hok.permit hx (hentry ▸ hpte) (pteFor_ne_zero _ flags)
      (ptePaddr_pteFor hframe flags) hleaf
    have hok' : Mm.OK M' vmas := Mm.OK.body.mp (hbody ▸ Mm.OK.body.mpr hpermit)
    have hstep : Relist base baseObjs a mm vmas s
        ⟨t, { s.desk with mms := setVmas s.desk.mms a mm vmas }⟩ := by
      refine ⟨⟨hreal, ?_, ?_⟩, rfl, rfl⟩
      · dsimp only
        rw [hfreed]
        exact h.log
      · dsimp only
        rw [hplain, hindexes]
        exact h.inv.permit hmm hok' hbody
    have hi : u32 (i + pageSize) = i + pageSize := Nat.mod_eq_of_lt (by omega)
    have haddr : u32 (x.start + pageSize) = x.start + pageSize := Nat.mod_eq_of_lt (by omega)
    have hM' : t.indexes mm.pgindex = some M' := by
      rw [hindexes, update_self]
    rw [if_neg (by decide), hi, haddr]
    refine wp_mono (ih hstep.good hstep.space hM' ?_ (by omega) (by omega) (by omega)) ?_
    · -- the pages that are left still have a VMA: only flags have changed
      intro j hj
      obtain ⟨y, hy, hystart⟩ := hpages (j + 1) (by omega)
      have hmem : y.body ∈ vmas.map Vma.body := hbody ▸ List.mem_map_of_mem hy
      obtain ⟨z, hz, hzy⟩ := List.mem_map.mp hmem
      refine ⟨z, hz, ?_⟩
      have hzstart : z.body.start = y.body.start := congrArg Vma.start hzy
      change z.start = y.start at hzstart
      rw [hzstart, hystart, Nat.add_mul]
      omega
    · rintro retcode s' ⟨hret, hrest, M'', hpermits, hindexes'⟩
      rw [← hnew, reflag_modify] at hrest
      rw [hindexes, update_idem] at hindexes'
      exact ⟨hret, hstep.trans (hnew ▸ hrest), M'', .cons hpte hpermits, hindexes'⟩

/-- **`set_uvm_perm`** refuses the range without a change, or sets the permission of all its
pages and the flags of its first VMA. -/
theorem wp_setUvmPerm_exact (h : Good base baseObjs s.desk.mms s)
    (hlive : a ≠ 0 → s.desk.mms a ≠ none) (hend : addr + len < 2 ^ 32)
    (hsent : sent.Misses addr len) :
    wp (setUvmPerm Books.ops sent a addr len flags) (fun retcode s' =>
      retcode ≠ 0 ∧ s' = s ∨ retcode = 0 ∧ ∃ mm M M' l xs r, s.desk.mms a = some mm ∧
        s.pages.indexes mm.pgindex = some M ∧ mm.vmas = l ++ (xs ++ r) ∧
        xs.length * pageSize = len ∧ Covers xs addr ∧
        Relist base baseObjs a mm (reflag l.length xs.length flags mm.vmas) s s' ∧
        Permits M M' addr xs.length flags ∧
        s'.pages.indexes = update s.pages.indexes mm.pgindex (some M')) s := by
  unfold setUvmPerm
  by_cases hargs : len % pageSize ≠ 0 ∨ a = 0 ∨ addr % pageSize ≠ 0
  · rw [if_pos hargs, wp_pure]
    exact .inl ⟨by decide, rfl⟩
  rw [if_neg hargs]
  obtain ⟨hlen, ha, haddr⟩ := range_args hargs
  obtain ⟨mm, hmm⟩ := Option.ne_none_iff_exists'.mp (hlive ha)
  rw [wp_bind]
  apply wp_getMm hmm
  obtain ⟨M, hM, hok⟩ := h.inv.spaces.space hmm
  obtain ⟨found, hfound, hstretch⟩ := findContinuousVma_spec hok haddr hlen hend hsent
  rw [wp_bind, hfound]
  refine wp_of_run rfl ?_
  cases found with
  | none =>
    rw [wp_pure]
    exact .inl ⟨by decide, rfl⟩
  | some k =>
    obtain ⟨l, xs, r, hvmas, hk, hcount, hcovers⟩ := hstretch k rfl
    have hpages : ∀ j, j < xs.length → ∃ x ∈ mm.vmas, x.start = addr + j * pageSize := by
      intro j hj
      refine ⟨xs[j], ?_, hcovers j _ (List.getElem?_eq_getElem hj)⟩
      have := List.getElem_mem hj
      simp [hvmas, this]
    have hfuel : xs.length ≤ maxPages := by
      rw [maxPages_val]
      unfold pageSize at hcount
      omega
    refine wp_mono (wp_setUvmPermLoop h hmm hM hpages (by rw [hcount, Nat.zero_add]) (by omega)
      (by omega) hfuel) ?_
    rintro retcode s' ⟨hret, hset, M', hpermits, hindexes⟩
    exact .inr ⟨hret, mm, M, M', l, xs, r, hmm, hM, hvmas, hcount, hcovers, hk ▸ hset, hpermits,
      hindexes⟩

/-! ### New address spaces -/

/-- **`mm_new`** makes an empty address space, or fails without a change. -/
theorem wp_mmNew {Q : Nat → Vm Books → Prop} (h : Good base baseObjs s.desk.mms s)
    (hfail : ∀ s', Good base baseObjs s'.desk.mms s' → s'.desk.mms = s.desk.mms →
      s'.desk.fixed = s.desk.fixed → s'.pages.indexes = s.pages.indexes → Q 0 s')
    (hnew : ∀ s' x pgindex, x ≠ 0 → x ∉ s.desk.objs → Good base baseObjs s'.desk.mms s' →
      s'.desk.mms = update s.desk.mms x (some ⟨pgindex, []⟩) →
      s'.desk.fixed = s.desk.fixed → s.pages.indexes pgindex = none →
      s'.pages.indexes = update s.pages.indexes pgindex (some .empty) → Q x s') :
    wp (mmNew Books.ops) Q s := by
  rw [mmNew, wp_bind]
  apply wp_kmalloc
  · intro _ sup
    rw [if_pos rfl, wp_pure]
    exact hfail _ ⟨h.real, h.log, h.inv⟩ rfl rfl rfl
  intro x sup _ hx0 hx
  rw [if_neg hx0, wp_bind, wp_onPages]
  apply wp_books_initPgindex h.real
  · intro t hreal hplain hindexes hfreed
    rw [if_pos rfl, wp_bind]
    apply wp_kfree List.mem_cons_self
    dsimp only [Vm.setObjs]
    rw [wp_pure, List.erase_cons_head]
    refine hfail _ ⟨hreal, ?_, ?_⟩ rfl rfl hindexes
    · rw [hfreed]
      exact h.log
    · rw [hplain, hindexes]
      exact h.inv
  · intro q t hreal hq hvacant hplain hindexes hfreed
    rw [if_neg hq, wp_bind, wp_setMm, wp_pure]
    refine hnew _ x q hx0 hx ⟨hreal, ?_, ?_⟩ rfl rfl hvacant hindexes
    · dsimp only [Vm.setMms]
      rw [hfreed]
      exact h.log
    · dsimp only [Vm.setMms]
      rw [hplain, hindexes]
      exact h.inv.new hx hvacant

end Specs

end AimKernel
