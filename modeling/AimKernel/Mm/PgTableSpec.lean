import AimKernel.Mm.PgTable
import Mathlib.Logic.Function.Basic

/-!
# AimKernel.Mm.PgTableSpec

What the page table functions do to one page index.

A page index is seen as two functions: `leafAt`, the leaf table of each directory
slot, and `pteAt`, the entry of each page. `Tables` says that directory and leaf
tables are pages of their own. Three changes of memory make up everything the
functions do: writing an entry (`Tables.storePte`), installing an empty leaf table
(`Tables.newLeaf`) and taking one away (`Tables.dropLeaf`). Each is an update of the
view at one point and leaves every other frame alone.

The specifications of `map_pages`, `unmap_pages` and `set_pages_perm` are for one
page, which is how the user memory code calls them.
-/

namespace AimKernel

open Function (update update_of_ne update_self)

/-! ### Pages and entries -/

/-- The address of a page. -/
def IsPage (v : Nat) : Prop := v % pageSize = 0 ∧ v < 2 ^ 32

instance (v : Nat) : Decidable (IsPage v) := inferInstanceAs (Decidable (_ ∧ _))

variable {i p pgindex v x : Nat} {m : Mem}

theorem pdx_lt (v : Nat) : pdx v < nrPtentries := Nat.mod_lt _ (by decide)

theorem ptx_lt (v : Nat) : ptx v < nrPtentries := Nat.mod_lt _ (by decide)

theorem IsPage.ext {w : Nat} (hv : IsPage v) (hw : IsPage w) (hd : pdx v = pdx w)
    (ht : ptx v = ptx w) : v = w := by
  obtain ⟨hva, hvl⟩ := hv
  obtain ⟨hwa, hwl⟩ := hw
  unfold pdx ptx pageSize at *
  omega

/-- The page with the given indices. -/
def pageAt (i j : Nat) : Nat := i * 2 ^ 22 + j * 2 ^ 12

theorem pageAt_spec {j : Nat} (hi : i < nrPtentries) (hj : j < nrPtentries) :
    IsPage (pageAt i j) ∧ pdx (pageAt i j) = i ∧ ptx (pageAt i j) = j := by
  unfold IsPage pageAt pdx ptx pageSize nrPtentries at *
  omega

theorem pgtablePerm_eq (flags : Nat) : pgtablePerm flags = 0x6c0 ∨ pgtablePerm flags = 0x7c0 := by
  unfold pgtablePerm
  split
  · exact .inr (by decide)
  · exact .inl (by decide)

theorem pgtablePerm_lt (flags : Nat) : pgtablePerm flags < 2 ^ 12 := by
  rcases pgtablePerm_eq flags with h | h <;> rw [h] <;> decide

theorem ptePaddr_eq (h : x < 2 ^ 32) : ptePaddr x = x / 2 ^ 12 * 2 ^ 12 := by
  unfold ptePaddr
  have hmask : (0xfffff000 : Nat) = (2 ^ 20 - 1) <<< 12 := by decide
  apply Nat.eq_of_testBit_eq
  intro k
  rw [hmask, Nat.testBit_and, Nat.testBit_shiftLeft, Nat.testBit_two_pow_sub_one, Nat.testBit_mul_two_pow,
    Nat.testBit_div_two_pow]
  by_cases hk : 12 ≤ k
  · rw [Nat.sub_add_cancel hk]
    by_cases hk' : k - 12 < 20
    · simp [hk, hk']
    · have hbig : x < 2 ^ k := Nat.lt_of_lt_of_le h (Nat.pow_le_pow_right (by decide) (by omega))
      simp [Nat.testBit_lt_two_pow hbig]
  · simp [hk]

/-- An entry keeps frame and permission apart. -/
theorem entry_or (hp : IsFrame p) (hx : x < 2 ^ 12) : u32 p ||| x = p + x := by
  obtain ⟨ha, hb⟩ := hp
  have hlt : u32 p = 2 ^ 12 * (p / 2 ^ 12) := by
    unfold u32 pageSize lowramTop at *
    omega
  rw [hlt, ← Nat.two_pow_add_eq_or_of_lt hx]
  unfold pageSize at ha
  omega

/-- The entry that maps a frame with the given permission. -/
def pteFor (p flags : Nat) : Nat := u32 p ||| pgtablePerm flags

theorem pteFor_lt (p flags : Nat) : pteFor p flags < 2 ^ 32 := by
  apply Nat.or_lt_two_pow
  · exact Nat.mod_lt _ (by decide)
  · exact Nat.lt_of_lt_of_le (pgtablePerm_lt flags) (by decide)

theorem permit_lt (hx : x < 2 ^ 32) (flags : Nat) :
    ptePaddr x ||| pgtablePerm flags < 2 ^ 32 := by
  apply Nat.or_lt_two_pow
  · rw [ptePaddr_eq hx]
    exact Nat.lt_of_le_of_lt (Nat.div_mul_le_self _ _) hx
  · exact Nat.lt_of_lt_of_le (pgtablePerm_lt flags) (by decide)

theorem pteFor_ne_zero (p flags : Nat) : pteFor p flags ≠ 0 := by
  intro hz
  have hperm := (Nat.or_eq_zero_iff.mp hz).2
  rcases pgtablePerm_eq flags with h | h <;> omega

/-- The address in an entry is the 32-bit address of the frame. -/
theorem ptePaddr_pteFor_u32 (hp : p % pageSize = 0) (flags : Nat) :
    ptePaddr (pteFor p flags) = u32 p := by
  have hperm := pgtablePerm_lt flags
  have hlt : u32 p = 2 ^ 12 * (u32 p / 2 ^ 12) := by
    unfold u32 pageSize at *
    omega
  rw [ptePaddr_eq (pteFor_lt p flags), pteFor, hlt, ← Nat.two_pow_add_eq_or_of_lt hperm]
  omega

theorem ptePaddr_pteFor (hp : IsFrame p) (flags : Nat) :
    ptePaddr (pteFor p flags) = p := by
  have hb := hp.2
  rw [ptePaddr_pteFor_u32 hp.1]
  exact Nat.mod_eq_of_lt (by unfold lowramTop at hb; omega)

/-! ### The view of a page index -/

/-- A word of the directory. -/
def pdeAt (m : Mem) (pgindex i : Nat) : Nat := m.load32 (entry pgindex i)

/-- The frame of the leaf table in a directory slot. -/
def leafAt (m : Mem) (pgindex i : Nat) : Option Nat :=
  if i < nrPtentries ∧ pdeAt m pgindex i ≠ 0 then some (kva2pa (pdeAt m pgindex i)) else none

/-- The page table entry of a page; zero if there is no leaf table. -/
def pteAt (m : Mem) (pgindex v : Nat) : Nat :=
  if IsPage v ∧ pdeAt m pgindex (pdx v) ≠ 0 then
    m.load32 (entry (pdeAt m pgindex (pdx v)) (ptx v))
  else 0

/-- The directory is the frame `d`, and every leaf table is a frame of its own. -/
structure Tables (m : Mem) (pgindex d : Nat) : Prop where
  dir : IsFrame d
  index : pgindex = pa2kva d
  kva : ∀ {i f}, leafAt m pgindex i = some f → pdeAt m pgindex i = pa2kva f
  frame : ∀ {i f}, leafAt m pgindex i = some f → IsFrame f
  ne_dir : ∀ {i f}, leafAt m pgindex i = some f → f ≠ d
  inj : ∀ {i j f}, leafAt m pgindex i = some f → leafAt m pgindex j = some f → i = j

theorem leafAt_eq_none (hi : i < nrPtentries) :
    leafAt m pgindex i = none ↔ pdeAt m pgindex i = 0 := by
  unfold leafAt
  simp [hi]

theorem leafAt_lt {f : Nat} (h : leafAt m pgindex i = some f) :
    i < nrPtentries := by
  unfold leafAt at h
  split at h
  · next hi => exact hi.1
  · cases h

/-- The entries of an absent leaf table are zero. -/
theorem pteAt_of_absent (h : leafAt m pgindex (pdx v) = none) :
    pteAt m pgindex v = 0 := by
  rw [leafAt_eq_none (pdx_lt v)] at h
  simp [pteAt, h]

theorem pteAt_lt (m : Mem) (pgindex v : Nat) : pteAt m pgindex v < 2 ^ 32 := by
  unfold pteAt
  split
  · exact Mem.load32_lt _ _
  · decide

theorem leafAt_of_pteAt (h : pteAt m pgindex v ≠ 0) :
    ∃ f, leafAt m pgindex (pdx v) = some f := by
  cases hl : leafAt m pgindex (pdx v) with
  | none => exact absurd (pteAt_of_absent hl) h
  | some f => exact ⟨f, rfl⟩

namespace Tables

variable {m m' : Mem} {pgindex d : Nat}

theorem pde_ne_zero (h : Tables m pgindex d) {i f : Nat} (hl : leafAt m pgindex i = some f) :
    pdeAt m pgindex i ≠ 0 := by
  rw [h.kva hl]
  exact (h.frame hl).pa2kva_ne_zero

/-- An entry of a present leaf table is a word of that table. -/
theorem pteAt_eq (h : Tables m pgindex d) {v f : Nat} (hv : IsPage v)
    (hl : leafAt m pgindex (pdx v) = some f) :
    pteAt m pgindex v = m.load32 (entry (pa2kva f) (ptx v)) := by
  have hne := h.pde_ne_zero hl
  unfold pteAt
  rw [if_pos ⟨hv, hne⟩, h.kva hl]

end Tables

theorem Untouched.word {m m' : Mem} {f i : Nat} (h : Untouched m m' f) (hi : i < nrPtentries) :
    m'.load32 (entry (pa2kva f) i) = m.load32 (entry (pa2kva f) i) := by
  unfold nrPtentries at hi
  exact Mem.SameOn.load32 h (by unfold entry; omega) (by unfold entry pageSize; omega)

theorem Untouched.store {m m' : Mem} {f g i w : Nat} (h : Untouched m m' f) (hf : IsFrame f)
    (hg : IsFrame g) (hne : f ≠ g) (hi : i < nrPtentries) :
    Untouched m (m'.store32 (entry (pa2kva g) i) w) f := by
  have hap := hg.apart hf hne.symm
  unfold nrPtentries at hi
  exact Mem.SameOn.store32 h (by unfold entry pageSize at *; omega)

namespace Tables

variable {m m' : Mem} {pgindex d : Nat}

variable {i l v x : Nat} {b : UInt8}

/-- A directory word is unchanged if its table is. -/
theorem pdeAt_congr (h : Tables m pgindex d) (hd : Untouched m m' d) (hi : i < nrPtentries)
    : pdeAt m' pgindex i = pdeAt m pgindex i := by
  rw [h.index]
  exact hd.word hi

theorem leafAt_congr (h : Tables m pgindex d) (hd : Untouched m m' d) :
    leafAt m' pgindex = leafAt m pgindex := by
  funext i
  unfold leafAt
  by_cases hi : i < nrPtentries
  · rw [h.pdeAt_congr hd hi]
  · simp [hi]

/-- Memory with the same directory has the same tables. -/
theorem of_dir (h : Tables m pgindex d) (hd : Untouched m m' d) : Tables m' pgindex d where
  dir := h.dir
  index := h.index
  kva := by
    intro i f hl
    have hi := leafAt_lt hl
    rw [h.leafAt_congr hd] at hl
    rw [h.pdeAt_congr hd hi]
    exact h.kva hl
  frame := by
    rw [h.leafAt_congr hd]
    exact h.frame
  ne_dir := by
    rw [h.leafAt_congr hd]
    exact h.ne_dir
  inj := by
    rw [h.leafAt_congr hd]
    exact h.inj

/-- An entry is unchanged if directory and leaf table are. -/
theorem pteAt_congr (h : Tables m pgindex d) (hd : Untouched m m' d)
    (hleaf : ∀ f, leafAt m pgindex (pdx v) = some f → Untouched m m' f) :
    pteAt m' pgindex v = pteAt m pgindex v := by
  by_cases hv : IsPage v
  · cases hl : leafAt m pgindex (pdx v) with
    | none =>
      rw [pteAt_of_absent hl, pteAt_of_absent]
      rw [h.leafAt_congr hd]
      exact hl
    | some f =>
      rw [h.pteAt_eq hv hl, (h.of_dir hd).pteAt_eq hv (by rw [h.leafAt_congr hd]; exact hl)]
      exact (hleaf f hl).word (ptx_lt v)
  · simp [pteAt, hv]

/-! ### The three changes -/

theorem storePte (h : Tables m pgindex d) {f e : Nat} (hv : IsPage v) (he : e < 2 ^ 32)
    (hl : leafAt m pgindex (pdx v) = some f) (hm : m' = m.store32 (entry (pa2kva f) (ptx v)) e) :
    Tables m' pgindex d ∧ leafAt m' pgindex = leafAt m pgindex ∧
      pteAt m' pgindex = update (pteAt m pgindex) v e := by
  have hf := h.frame hl
  have hd : Untouched m m' d := by
    rw [hm]
    exact (Untouched.refl m d).store h.dir hf (h.ne_dir hl).symm (ptx_lt v)
  refine ⟨h.of_dir hd, h.leafAt_congr hd, ?_⟩
  funext w
  by_cases hwv : w = v
  · rw [hwv, update_self, (h.of_dir hd).pteAt_eq hv (by rw [h.leafAt_congr hd]; exact hl),
      hm]
    exact Mem.load32_store32_same m he
  · rw [update_of_ne hwv]
    by_cases hw : IsPage w
    · by_cases hslot : pdx w = pdx v
      · -- another entry of the same leaf table
        have hlw : leafAt m pgindex (pdx w) = some f := by rw [hslot]; exact hl
        have hidx : ptx w ≠ ptx v := fun heq => hwv (hw.ext hv hslot heq)
        rw [h.pteAt_eq hw hlw, (h.of_dir hd).pteAt_eq hw (by rw [h.leafAt_congr hd]; exact hlw), hm]
        exact Mem.load32_store32_of_ne m (by unfold entry; omega)
      · apply h.pteAt_congr hd
        intro g hg
        rw [hm]
        refine (Untouched.refl m g).store (h.frame hg) hf ?_ (ptx_lt v)
        intro heq
        rw [heq] at hg
        exact hslot (h.inj hg hl)
    · simp [pteAt, hw]

theorem pdeAt_store (h : Tables m pgindex d) (hx : x < 2 ^ 32) {m1 : Mem} (hsame : Untouched m m1 d)
    (hm : m' = m1.store32 (entry pgindex i) x) {j : Nat} (hj : j < nrPtentries) :
    pdeAt m' pgindex j = if j = i then x else pdeAt m pgindex j := by
  rw [hm]
  unfold pdeAt
  by_cases hji : j = i
  · rw [if_pos hji, hji]
    exact Mem.load32_store32_same m1 hx
  · rw [if_neg hji, Mem.load32_store32_of_ne m1 (by unfold entry; omega), h.index]
    exact hsame.word hj

/-- Overwriting the frame `l` and letting a directory slot point to it or to
nothing, where no other slot uses `l`. -/
theorem setSlot (h : Tables m pgindex d) (hi : i < nrPtentries) (hl : IsFrame l) (hld : l ≠ d)
    (hother : ∀ j, j ≠ i → leafAt m pgindex j ≠ some l) {new : Option Nat}
    (hnone : new = none → x = 0) (hsome : ∀ f, new = some f → f = l ∧ x = pa2kva l)
    (hm : m' = (m.fill (pa2kva l) b pageSize).store32 (entry pgindex i) x) :
    Tables m' pgindex d ∧ leafAt m' pgindex = update (leafAt m pgindex) i new ∧
      ∀ w, pdx w ≠ i → pteAt m' pgindex w = pteAt m pgindex w := by
  have hsame : Untouched m (m.fill (pa2kva l) b pageSize) d :=
    (Untouched.refl m d).fill h.dir hl hld.symm
  have hword : x < 2 ^ 32 := by
    cases hn : new with
    | none =>
      rw [hnone hn]
      decide
    | some f =>
      have hlt := hl.pa2kva_lt
      rw [(hsome f hn).2]
      omega
  have hpde : ∀ {j}, j < nrPtentries →
      pdeAt m' pgindex j = if j = i then x else pdeAt m pgindex j :=
    h.pdeAt_store hword hsame hm
  have hleaf : leafAt m' pgindex = update (leafAt m pgindex) i new := by
    funext j
    by_cases hji : j = i
    · rw [hji, update_self]
      cases hn : new with
      | none => rw [leafAt_eq_none hi, hpde hi, if_pos rfl, hnone hn]
      | some f =>
        obtain ⟨rfl, hx⟩ := hsome f hn
        unfold leafAt
        rw [hpde hi, if_pos rfl, hx, if_pos ⟨hi, hl.pa2kva_ne_zero⟩, hl.kva2pa_pa2kva]
    · rw [update_of_ne hji]
      unfold leafAt
      by_cases hj : j < nrPtentries
      · rw [hpde hj, if_neg hji]
      · simp [hj]
  -- which leaf tables there are now
  have hcases : ∀ {j f}, leafAt m' pgindex j = some f →
      (j = i ∧ new = some f) ∨ (j ≠ i ∧ leafAt m pgindex j = some f) := by
    intro j f hjf
    rw [hleaf] at hjf
    by_cases hji : j = i
    · rw [hji, update_self] at hjf
      exact .inl ⟨hji, hjf⟩
    · rw [update_of_ne hji] at hjf
      exact .inr ⟨hji, hjf⟩
  have htables : Tables m' pgindex d := by
    refine ⟨h.dir, h.index, ?_, ?_, ?_, ?_⟩
    · intro j f hjf
      rw [hpde (leafAt_lt hjf)]
      rcases hcases hjf with ⟨hji, hn⟩ | ⟨hji, hold⟩
      · obtain ⟨rfl, hx⟩ := hsome f hn
        rw [if_pos hji, hx]
      · rw [if_neg hji]
        exact h.kva hold
    · intro j f hjf
      rcases hcases hjf with ⟨-, hn⟩ | ⟨-, hold⟩
      · rw [(hsome f hn).1]
        exact hl
      · exact h.frame hold
    · intro j f hjf
      rcases hcases hjf with ⟨-, hn⟩ | ⟨-, hold⟩
      · rw [(hsome f hn).1]
        exact hld
      · exact h.ne_dir hold
    · intro j k f hjf hkf
      rcases hcases hjf with ⟨hj, hn⟩ | ⟨hj, hold⟩
      · rcases hcases hkf with ⟨hk, -⟩ | ⟨hk, hold'⟩
        · rw [hj, hk]
        · exact absurd ((hsome f hn).1 ▸ hold') (hother k hk)
      · rcases hcases hkf with ⟨-, hn⟩ | ⟨-, hold'⟩
        · exact absurd ((hsome f hn).1 ▸ hold) (hother j hj)
        · exact h.inj hold hold'
  refine ⟨htables, hleaf, ?_⟩
  intro w hslot
  by_cases hw : IsPage w
  · cases hold : leafAt m pgindex (pdx w) with
    | none =>
      rw [pteAt_of_absent hold, pteAt_of_absent]
      rw [hleaf, update_of_ne hslot]
      exact hold
    | some f =>
      have hf := h.frame hold
      have hfl : f ≠ l := fun heq => hother _ hslot (heq ▸ hold)
      rw [h.pteAt_eq hw hold,
        htables.pteAt_eq hw (by rw [hleaf, update_of_ne hslot]; exact hold), hm, h.index]
      exact (((Untouched.refl m f).fill hf hl hfl).store hf h.dir (h.ne_dir hold) hi).word
        (ptx_lt w)
  · simp [pteAt, hw]

/-- Installing an empty leaf table in a vacant slot. -/
theorem newLeaf (h : Tables m pgindex d) (hi : i < nrPtentries) (hl : IsFrame l)
    (hvacant : leafAt m pgindex i = none) (hld : l ≠ d) (hother : ∀ j, leafAt m pgindex j ≠ some l)
    (hm : m' = (m.fill (pa2kva l) 0 pageSize).store32 (entry pgindex i) (pa2kva l)) :
    Tables m' pgindex d ∧ leafAt m' pgindex = update (leafAt m pgindex) i (some l) ∧
      pteAt m' pgindex = pteAt m pgindex := by
  obtain ⟨htables, hleaf, hpte⟩ := h.setSlot hi hl hld (fun j _ => hother j)
    (fun h => absurd h (Option.some_ne_none l)) (fun _ h => ⟨(Option.some.inj h).symm, rfl⟩) hm
  refine ⟨htables, hleaf, ?_⟩
  funext w
  by_cases hslot : pdx w = i
  · rw [pteAt_of_absent (m := m) (by rw [hslot]; exact hvacant)]
    by_cases hw : IsPage w
    · -- the new table is all zero
      have hidx := ptx_lt w
      have hap := h.dir.apart hl hld.symm
      rw [htables.pteAt_eq hw (by rw [hleaf, hslot]; exact update_self ..), hm, h.index]
      unfold nrPtentries at hidx hi
      rw [Mem.load32_store32_of_ne _ (by unfold entry pageSize at *; omega)]
      exact Mem.load32_fill_zero m (by unfold entry; omega) (by unfold entry pageSize; omega)
    · simp [pteAt, hw]
  · exact hpte w hslot

theorem dropLeaf (h : Tables m pgindex d) (hl : leafAt m pgindex i = some l)
    (hempty : ∀ w, pdx w = i → pteAt m pgindex w = 0)
    (hm : m' = (m.fill (pa2kva l) b pageSize).store32 (entry pgindex i) 0) :
    Tables m' pgindex d ∧ leafAt m' pgindex = update (leafAt m pgindex) i none ∧
      pteAt m' pgindex = pteAt m pgindex := by
  obtain ⟨htables, hleaf, hpte⟩ := h.setSlot (leafAt_lt hl) (h.frame hl) (h.ne_dir hl)
    (fun j hj hjl => hj (h.inj hjl hl)) (fun _ => rfl)
    (fun f h => absurd h.symm (Option.some_ne_none f)) hm
  refine ⟨htables, hleaf, ?_⟩
  funext w
  by_cases hslot : pdx w = i
  · rw [hempty w hslot, pteAt_of_absent]
    rw [hleaf, hslot, update_self]
  · exact hpte w hslot

end Tables

/-! ### Specifications -/

section PageSpecs

variable {s : Phys} {pgindex d v : Nat}

variable {e f flags fuel i l pcur pend vcur : Nat} {pd : Pagedesc}
  {Q : Int × Pagedesc → Phys → Prop} {m m' : Mem}

/-- The loops have rounds to spare for one page. -/
theorem maxPages_eq : maxPages = (maxPages - 1) + 1 := by
  unfold maxPages
  rfl

theorem mapScan_done (h : ¬ pcur < pend) :
    mapScan pgindex pend fuel pcur vcur pd = pure (0, vcur, pd) := by
  rw [mapScan.eq_def, if_neg h]

theorem mapFill_done (h : ¬ pcur < pend) :
    mapFill pgindex pend flags fuel pcur vcur pd = pure () := by
  rw [mapFill.eq_def, if_neg h]

theorem wp_getpagedesc_present {create : Bool} (ht : Tables s.mem pgindex d)
    (hl : leafAt s.mem pgindex (pdx v) = some f) (hQ : Q (0, ⟨pgindex, pa2kva f, pdx v, ptx v⟩) s) :
    wp (getpagedesc pgindex v create pd) Q s := by
  have hpde := ht.kva hl
  have hne := ht.pde_ne_zero hl
  unfold pdeAt at hpde hne
  simp only [getpagedesc, wp_bind, wp_get]
  rw [if_pos hne, wp_pure, hpde]
  exact hQ

theorem wp_getpagedesc_create (hnone : leafAt s.mem pgindex (pdx v) = none)
    (hans : s.answer pageSize = some l) (hQ : Q (0, ⟨pgindex, pa2kva l, pdx v, ptx v⟩) { s with
      mem := (s.mem.fill (pa2kva l) 0 pageSize).store32 (entry pgindex (pdx v)) (pa2kva l)
      frames := l :: s.frames
      supply := s.supply.tail }) :
    wp (getpagedesc pgindex v true pd) Q s := by
  rw [leafAt_eq_none (pdx_lt v)] at hnone
  unfold pdeAt at hnone
  have hl := (Phys.answer_page hans).1.ne_addrError
  simp only [getpagedesc, wp_bind, wp_get]
  rw [if_neg (not_not.mpr hnone), if_pos trivial, wp_bind]
  apply wp_pgalloc hans
  rw [if_neg hl, wp_bind, wp_modify, wp_pure]
  exact hQ

/-- **`map_pages` for one page** that is not mapped. `s₁` is the state when its leaf table is
there. -/
theorem wp_mapPages {p : Nat} {s₁ : Phys} {Q : Int → Phys → Prop} (ht : Tables s₁.mem pgindex d)
    (hv : IsPage v) (hp : IsFrame p) (hl : leafAt s₁.mem pgindex (pdx v) = some f)
    (hfree : pteAt s₁.mem pgindex v = 0)
    (hget : ∀ {pd Q}, Q (0, ⟨pgindex, pa2kva f, pdx v, ptx v⟩) s₁ →
      wp (getpagedesc pgindex v true pd) Q s)
    (hQ : Q 0 { s₁ with mem := s₁.mem.store32 (entry (pa2kva f) (ptx v)) (pteFor p flags) }) :
    wp (mapPages pgindex v p pageSize flags) Q s := by
  have hpend : add64 p pageSize = p + pageSize := add64_eq (by
    have := hp.2
    unfold lowramTop at this
    omega)
  have hlt : p < p + pageSize := by
    unfold pageSize
    omega
  have hnlt : ¬ p + pageSize < p + pageSize := Nat.lt_irrefl _
  have haligned : ¬ (p % pageSize ≠ 0 ∨ pageSize % pageSize ≠ 0 ∨ v % pageSize ≠ 0) := by
    simp [hp.1, hv.1]
  have hentry := ht.pteAt_eq hv hl
  rw [hfree] at hentry
  unfold mapPages
  rw [if_neg haligned, hpend, wp_bind, maxPages_eq, mapScan, if_pos hlt, wp_bind]
  apply hget
  dsimp only
  rw [if_neg (by decide), wp_bind, wp_get, if_neg (not_not.mpr hentry.symm), hpend,
    mapScan_done hnlt, wp_pure]
  -- the second pass
  dsimp only
  rw [if_neg (by decide), wp_bind, mapFill, if_pos hlt, wp_bind]
  apply wp_getpagedesc_present ht hl
  rw [wp_bind, wp_modify, hpend, mapFill_done hnlt, wp_pure, wp_pure]
  exact hQ

/-! ### `unmap_pages` -/

/-- The test of `__free_intermediate_pgtable`. -/
theorem leaf_all_zero_iff (ht : Tables m pgindex d) (hl : leafAt m pgindex i = some f) :
    ((List.range nrPtentries).all fun j => m.load32 (entry (pa2kva f) j) == 0) = true ↔
      ∀ w, pdx w = i → pteAt m pgindex w = 0 := by
  rw [List.all_eq_true]
  constructor
  · intro h w hw
    by_cases hpage : IsPage w
    · rw [ht.pteAt_eq hpage (by rw [hw]; exact hl)]
      exact eq_of_beq (h (ptx w) (List.mem_range.mpr (ptx_lt w)))
    · simp [pteAt, hpage]
  · intro h j hj
    obtain ⟨hpage, hpdx, hptx⟩ := pageAt_spec (leafAt_lt hl) (List.mem_range.mp hj)
    have hz := h _ hpdx
    rw [ht.pteAt_eq hpage (by rw [hpdx]; exact hl), hptx] at hz
    exact beq_iff_eq.mpr hz

/-- One round of `__free_intermediate_pgtable` on a slot with a leaf table. -/
theorem wp_freeIfEmpty {Q : Unit → Phys → Prop} (ht : Tables s.mem pgindex d)
    (hl : leafAt s.mem pgindex i = some f) (hf : f ∈ s.frames)
    (hkeep : ∀ w, pdx w = i → pteAt s.mem pgindex w ≠ 0 → Q () s)
    (hdrop : (∀ w, pdx w = i → pteAt s.mem pgindex w = 0) → Q () { s with
      mem := (s.mem.fill (pa2kva f) junkbyte pageSize).store32 (entry pgindex i) 0
      frames := s.frames.erase f
      freed := (f, s.mem) :: s.freed }) :
    wp (freeIfEmpty pgindex i) Q s := by
  have hpde := ht.kva hl
  have hne := ht.pde_ne_zero hl
  have hframe := ht.frame hl
  unfold pdeAt at hpde hne
  rw [freeIfEmpty, wp_bind, wp_get]
  dsimp only
  rw [if_neg hne, hpde]
  have hzero := leaf_all_zero_iff ht hl
  cases htest : (List.range nrPtentries).all fun j => s.mem.load32 (entry (pa2kva f) j) == 0 with
  | true =>
    rw [if_pos rfl, wp_bind, hframe.kva2pa_pa2kva]
    apply wp_pgfree hframe hf
    rw [wp_modify]
    dsimp only
    exact hdrop (hzero.mp htest)
  | false =>
    have hall : ¬ ∀ w, pdx w = i → pteAt s.mem pgindex w = 0 := by
      rw [← hzero, htest]
      decide
    obtain ⟨w, hw⟩ := not_forall.mp hall
    obtain ⟨hslot, hpte⟩ := Classical.not_imp.mp hw
    rw [if_neg Bool.false_ne_true, wp_pure]
    exact hkeep w hslot hpte

theorem unmapLoop_done {vend unmapped : Nat} {paddr : Option Nat} (h : ¬ vcur < vend) :
    unmapLoop pgindex vend fuel vcur unmapped pcur pd paddr = pure (unmapped, paddr) := by
  rw [unmapLoop.eq_def, if_neg h]

/-- **`unmap_pages` for one page** with a leaf table: the entry is cleared, and the table is freed
if it is empty then. -/
theorem wp_unmapPages {Q : Nat × Option Nat → Phys → Prop} (ht : Tables s.mem pgindex d)
    (hv : IsPage v) (hend : v + pageSize < 2 ^ 32) (hl : leafAt s.mem pgindex (pdx v) = some f)
    (hQ : wp (freeIfEmpty pgindex (pdx v))
      (fun _ => Q (pageSize, some (ptePaddr (pteAt s.mem pgindex v))))
      { s with mem := s.mem.store32 (entry (pa2kva f) (ptx v)) 0 }) :
    wp (unmapPages pgindex v pageSize) Q s := by
  have hvend : u32 (v + pageSize) = v + pageSize := Nat.mod_eq_of_lt hend
  have hlt : v < v + pageSize := by
    unfold pageSize
    omega
  have hlast : u32 (v + pageSize + (2 ^ 32 - pageSize)) = v := by
    unfold u32 pageSize at *
    omega
  have hone : List.range' (pdx v) (pdx v + 1 - pdx v) = [pdx v] := by
    rw [Nat.add_sub_cancel_left, List.range'_one]
  rw [unmapPages, wp_bind, hvend, maxPages_eq, unmapLoop, if_pos hlt, wp_bind]
  apply wp_getpagedesc_present ht hl
  dsimp only
  rw [if_neg (by decide), wp_bind, wp_get, ← ht.pteAt_eq hv hl, if_neg (by simp)]
  rw [if_pos rfl]
  dsimp only
  rw [wp_bind, wp_modify, hvend, unmapLoop_done (Nat.lt_irrefl _), wp_pure]
  rw [Nat.zero_add, show u32 pageSize = pageSize by decide, wp_bind, freeIntermediatePgtable, hlast,
    hone, List.forM, wp_bind]
  apply wp_mono hQ
  intro _ s' hq
  rw [List.forM, wp_pure, wp_pure]
  exact hq

/-! ### `set_pages_perm` -/

theorem setPermLoop_done {len addr : Nat} (h : ¬ i < len) :
    setPermLoop pgindex len flags fuel i addr pd = pure () := by
  rw [setPermLoop.eq_def, if_neg h]

/-- **`set_pages_perm` for one page** with a leaf table. -/
theorem wp_setPagesPerm {Q : Int → Phys → Prop} (ht : Tables s.mem pgindex d) (hv : IsPage v)
    (hl : leafAt s.mem pgindex (pdx v) = some f)
    (hQ : Q 0 { s with
      mem := s.mem.store32 (entry (pa2kva f) (ptx v))
        (ptePaddr (pteAt s.mem pgindex v) ||| pgtablePerm flags) }) :
    wp (setPagesPerm pgindex v pageSize flags) Q s := by
  have hpos : 0 < pageSize := by decide
  rw [setPagesPerm, wp_bind, maxPages_eq, setPermLoop, if_pos hpos, wp_bind]
  apply wp_getpagedesc_present ht hl
  dsimp only
  rw [if_neg (by decide), wp_bind, wp_modify, ← ht.pteAt_eq hv hl,
    setPermLoop_done (by decide), wp_pure, wp_pure]
  exact hQ

/-! ### Creating and destroying a page index -/

/-- A page index whose directory was just cleared. -/
theorem Tables.empty (hf : IsFrame f) (hp : pgindex = pa2kva f)
    (hm : m' = m.fill (pa2kva f) 0 pageSize) :
    Tables m' pgindex f ∧ leafAt m' pgindex = (fun _ => none) ∧
      pteAt m' pgindex = fun _ => 0 := by
  have hleaf : leafAt m' pgindex = fun _ => none := by
    funext i
    by_cases hi : i < nrPtentries
    · rw [leafAt_eq_none hi, hm, hp]
      unfold nrPtentries at hi
      exact Mem.load32_fill_zero m (by unfold entry; omega) (by unfold entry pageSize; omega)
    · simp [leafAt, hi]
  refine ⟨⟨hf, hp, ?_, ?_, ?_, ?_⟩, hleaf, ?_⟩
  · intro i f h
    rw [hleaf] at h
    cases h
  · intro i f h
    rw [hleaf] at h
    cases h
  · intro i f h
    rw [hleaf] at h
    cases h
  · intro i j f h
    rw [hleaf] at h
    cases h
  · funext v
    exact pteAt_of_absent (congrFun hleaf _)

end PageSpecs

end AimKernel
