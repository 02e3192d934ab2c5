import Mathlib.Data.List.Pairwise
import Mathlib.Order.CompletePartialOrder
import Mathlib.Order.Interval.Set.Disjoint

/-!
# AimKernel.Lib.Regions

Half-open address ranges, and lists of them that partition a set of addresses.

`Partition rs S` says that the regions `rs` are non-empty, pairwise disjoint and
together cover exactly `S`. It only depends on the regions up to permutation, and
a group of them can be exchanged for another group covering the same addresses
(`Partition.exchange`), which is how splitting and coalescing are justified.
-/

namespace AimKernel

/-- The addresses `base, …, base + len - 1`. -/
structure Region where
  base : Nat
  len : Nat
  deriving Repr, DecidableEq

namespace Region

/-- One past the last address. -/
def stop (r : Region) : Nat := r.base + r.len

/-- The addresses of a region. -/
def bytes (r : Region) : Set Nat := Set.Ico r.base r.stop

@[simp] theorem mem_bytes {r : Region} {x : Nat} : x ∈ r.bytes ↔ r.base ≤ x ∧ x < r.stop :=
  Iff.rfl

/-- Non-empty regions are disjoint iff one ends before the other starts. -/
theorem disjoint_iff {a b : Region} (ha : 0 < a.len) (hb : 0 < b.len) :
    Disjoint a.bytes b.bytes ↔ a.stop ≤ b.base ∨ b.stop ≤ a.base := by
  unfold bytes
  rw [Set.Ico_disjoint_Ico]
  unfold stop
  omega

/-- The parts of `o` before and after `p`. -/
def minus (o p : Region) : List Region :=
  (if o.base < p.base then [⟨o.base, p.base - o.base⟩] else []) ++
    (if p.stop < o.stop then [⟨p.stop, o.stop - p.stop⟩] else [])

end Region

/-- Some region of the list contains the address. -/
def Covered (rs : List Region) (x : Nat) : Prop := ∃ r ∈ rs, x ∈ r.bytes

@[simp] theorem covered_nil (x : Nat) : ¬ Covered [] x := by simp [Covered]

@[simp] theorem covered_cons {r : Region} {rs : List Region} {x : Nat} :
    Covered (r :: rs) x ↔ (r.base ≤ x ∧ x < r.stop) ∨ Covered rs x := by
  simp [Covered]

@[simp] theorem covered_append {rs ts : List Region} {x : Nat} :
    Covered (rs ++ ts) x ↔ Covered rs x ∨ Covered ts x := by
  simp [Covered, or_and_right, exists_or]

/-- The regions are non-empty, pairwise disjoint and together make up `S`. -/
structure Partition (rs : List Region) (S : Set Nat) : Prop where
  pos : ∀ r ∈ rs, 0 < r.len
  disjoint : rs.Pairwise fun a b => Disjoint a.bytes b.bytes
  covers : ∀ x, Covered rs x ↔ x ∈ S

namespace Partition

variable {rs ts : List Region} {S : Set Nat} {q : Region}

theorem nil : Partition [] ∅ := ⟨by simp, by simp, by simp⟩

theorem perm (h : Partition rs S) (hp : rs.Perm ts) : Partition ts S := by
  refine ⟨fun r hr => h.pos r (hp.mem_iff.mpr hr), ?_, ?_⟩
  · exact hp.pairwise h.disjoint (fun hab => hab.symm)
  · intro x
    rw [← h.covers x]
    simp only [Covered, hp.mem_iff]

/-- Some of the regions make up what they cover. -/
theorem sublist (h : Partition rs S) (hs : ts.Sublist rs) : Partition ts {x | Covered ts x} :=
  ⟨fun r hr => h.pos r (hs.subset hr), h.disjoint.sublist hs, fun _ => Iff.rfl⟩

/-- Exchange a group of regions for another one covering the same addresses. -/
theorem exchange (old new : List Region) (h : Partition (old ++ rs) S) (hpos : ∀ r ∈ new, 0 < r.len)
    (hdisj : new.Pairwise fun a b => Disjoint a.bytes b.bytes)
    (hcov : ∀ x, Covered new x ↔ Covered old x) : Partition (new ++ rs) S := by
  have hpw := List.pairwise_append.mp h.disjoint
  refine ⟨?_, ?_, ?_⟩
  · intro r hr
    rcases List.mem_append.mp hr with hr | hr
    · exact hpos r hr
    · exact h.pos r (by simp [hr])
  · rw [List.pairwise_append]
    refine ⟨hdisj, hpw.2.1, ?_⟩
    intro a ha b hb
    rw [Set.disjoint_left]
    intro x hxa hxb
    obtain ⟨c, hc, hxc⟩ := (hcov x).mp ⟨a, ha, hxa⟩
    exact Set.disjoint_left.mp (hpw.2.2 c hc b hb) hxc hxb
  · intro x
    rw [← h.covers x, covered_append, covered_append, hcov]

/-- Add a region that is disjoint from everything so far. -/
theorem add (h : Partition rs S) (hq : 0 < q.len) (hd : Disjoint q.bytes S) :
    Partition (q :: rs) (q.bytes ∪ S) := by
  refine ⟨?_, ?_, ?_⟩
  · simpa [hq] using h.pos
  · refine List.pairwise_cons.mpr ⟨?_, h.disjoint⟩
    intro r hr
    refine hd.mono_right ?_
    intro x hx
    exact (h.covers x).mp ⟨r, hr, hx⟩
  · intro x
    rw [covered_cons, h.covers x]
    rfl

theorem join {a b : Region} (h : Partition (a :: b :: rs) S) (hab : a.stop = b.base) :
    Partition (⟨a.base, a.len + b.len⟩ :: rs) S := by
  have ha := h.pos a (by simp)
  refine exchange [a, b] [⟨a.base, a.len + b.len⟩] h ?_ (by simp) ?_
  · intro r hr
    obtain rfl := List.mem_singleton.mp hr
    show 0 < a.len + b.len
    omega
  · intro x
    simp only [covered_cons, covered_nil, or_false, Region.stop] at hab ⊢
    omega

theorem cut {a : Region} {n : Nat} (h : Partition (a :: rs) S) (hn : 0 < n) (hna : n < a.len) :
    Partition (⟨a.base, n⟩ :: ⟨a.base + n, a.len - n⟩ :: rs) S := by
  refine exchange [a] [⟨a.base, n⟩, ⟨a.base + n, a.len - n⟩] h ?_ ?_ ?_
  · intro r hr
    simp only [List.mem_cons, List.not_mem_nil, or_false] at hr
    rcases hr with rfl | rfl
    · exact hn
    · show 0 < a.len - n
      omega
  · rw [List.pairwise_pair, Region.disjoint_iff hn (show 0 < a.len - n by omega)]
    exact Or.inl (le_refl _)
  · intro x
    simp only [covered_cons, covered_nil, or_false, Region.stop]
    omega

/-- Part of a region can be separated from what is left of it. -/
theorem carve {o p : Region} (h : Partition (o :: rs) S) (hp : 0 < p.len)
    (hlo : o.base ≤ p.base) (hhi : p.stop ≤ o.stop) :
    Partition (p :: (o.minus p ++ rs)) S := by
  refine exchange [o] (p :: o.minus p) h ?_ ?_ ?_
  · intro r hr
    rcases List.mem_cons.mp hr with rfl | hr
    · exact hp
    · unfold Region.minus at hr
      rcases List.mem_append.mp hr with hr | hr
      · split at hr
        case _ hlt =>
            obtain rfl := List.mem_singleton.mp hr
            show 0 < p.base - o.base
            omega
        case _ => simp at hr
      · split at hr
        case _ hlt =>
            obtain rfl := List.mem_singleton.mp hr
            show 0 < o.stop - p.stop
            omega
        case _ => simp at hr
  · obtain ⟨ob, ol⟩ := o
    obtain ⟨pb, pl⟩ := p
    dsimp only [Region.stop, Region.minus] at *
    by_cases h1 : ob < pb <;> by_cases h2 : pb + pl < ob + ol <;>
      simp only [h1, h2, if_true, if_false, List.append_nil, List.nil_append,
        List.singleton_append, List.pairwise_cons, List.mem_cons, List.not_mem_nil, or_false,
        forall_eq_or_imp, forall_eq, Region.bytes, Region.stop, Set.Ico_disjoint_Ico,
        List.Pairwise.nil, IsEmpty.forall_iff, implies_true, and_true] <;> omega
  · intro x
    obtain ⟨ob, ol⟩ := o
    obtain ⟨pb, pl⟩ := p
    dsimp only [Region.stop, Region.minus] at *
    by_cases h1 : ob < pb <;> by_cases h2 : pb + pl < ob + ol <;>
      simp only [h1, h2, if_true, if_false, List.append_nil, List.nil_append,
        List.singleton_append, covered_cons, covered_nil, or_false, Region.stop] <;> omega

end Partition

/-! ### Separated regions -/

/-- Non-empty regions in ascending order with a gap between any two. -/
structure Separated (rs : List Region) : Prop where
  pos : ∀ r ∈ rs, 0 < r.len
  gap : rs.Pairwise fun a b => a.stop < b.base

namespace Separated

variable {r t : Region} {rs ts : List Region}

theorem tail (h : Separated (r :: rs)) : Separated rs :=
  ⟨fun q hq => h.pos q (List.mem_cons_of_mem r hq), (List.pairwise_cons.mp h.gap).2⟩

theorem partition (h : Separated rs) : Partition rs {x | Covered rs x} := by
  refine ⟨h.pos, h.gap.imp_of_mem ?_, fun _ => Iff.rfl⟩
  intro a b ha hb hab
  exact (Region.disjoint_iff (h.pos a ha) (h.pos b hb)).mpr (.inl (le_of_lt hab))

theorem covered_tail (h : Separated (r :: rs)) {x : Nat} (hx : Covered rs x) : r.stop < x := by
  obtain ⟨q, hq, hxq⟩ := hx
  have hgap := (List.pairwise_cons.mp h.gap).1 q hq
  rw [Region.mem_bytes] at hxq
  omega

theorem covered_tail_iff (h : Separated (r :: rs)) {x : Nat} :
    Covered rs x ↔ Covered (r :: rs) x ∧ r.stop < x := by
  constructor
  · intro hx
    exact ⟨covered_cons.mpr (.inr hx), h.covered_tail hx⟩
  · rintro ⟨hx, hlt⟩
    rcases covered_cons.mp hx with hx | hx
    · omega
    · exact hx

/-- The first region starts no later than any covered address. -/
theorem base_le (h : Separated (r :: rs)) {x : Nat} (hx : Covered (r :: rs) x) : r.base ≤ x := by
  rcases covered_cons.mp hx with hx | hx
  · exact hx.1
  · have hlt := h.covered_tail hx
    unfold Region.stop at hlt
    omega

theorem covered_base (h : Separated (r :: rs)) : Covered (r :: rs) r.base := by
  have hpos := h.pos r (by simp)
  refine covered_cons.mpr (.inl ⟨le_refl _, ?_⟩)
  unfold Region.stop
  omega

theorem not_covered_stop (h : Separated (r :: rs)) : ¬ Covered (r :: rs) r.stop := by
  intro hx
  rcases covered_cons.mp hx with hx | hx
  · omega
  · exact Nat.lt_irrefl _ (h.covered_tail hx)

/-- One of two lists that cover the same addresses does not stop its first region
later than the other. -/
theorem stop_le (h : Separated (r :: rs)) (hbase : t.base = r.base)
    (hcov : ∀ x, Covered (t :: ts) x → Covered (r :: rs) x) : t.stop ≤ r.stop := by
  by_contra hlt
  refine h.not_covered_stop (hcov _ (covered_cons.mpr (.inl ⟨?_, by omega⟩)))
  unfold Region.stop
  omega

/-- An interval that is wholly covered lies in one region. -/
theorem exists_of_interval (h : Separated rs) {x n : Nat} (hn : 0 < n)
    (hcov : ∀ y, x ≤ y → y < x + n → Covered rs y) :
    ∃ q ∈ rs, q.base ≤ x ∧ x + n ≤ q.stop := by
  induction rs with
  | nil => exact absurd (hcov x (le_refl _) (by omega)) (covered_nil x)
  | cons r rs ih =>
    rcases covered_cons.mp (hcov x (le_refl _) (by omega)) with hx | hx
    · refine ⟨r, by simp, hx.1, ?_⟩
      by_contra hlt
      exact h.not_covered_stop (hcov _ (le_of_lt hx.2) (by omega))
    · have hlt := h.covered_tail hx
      obtain ⟨q, hq, hin⟩ := ih h.tail fun y hlo hhi =>
        h.covered_tail_iff.mpr ⟨hcov y hlo hhi, by omega⟩
      exact ⟨q, List.mem_cons_of_mem r hq, hin⟩

/-- Separated regions are determined by the addresses they cover. -/
theorem ext (hr : Separated rs) (ht : Separated ts) (hcov : ∀ x, Covered rs x ↔ Covered ts x) :
    rs = ts := by
  induction rs generalizing ts with
  | nil =>
    cases ts with
    | nil => rfl
    | cons t ts => exact absurd ((hcov _).mpr ht.covered_base) (covered_nil _)
  | cons r rs ih =>
    cases ts with
    | nil => exact absurd ((hcov _).mp hr.covered_base) (covered_nil _)
    | cons t ts =>
      have hbase : t.base = r.base := Nat.le_antisymm
        (ht.base_le ((hcov _).mp hr.covered_base))
        (hr.base_le ((hcov _).mpr ht.covered_base))
      have hstop : t.stop = r.stop := Nat.le_antisymm
        (hr.stop_le hbase fun x => (hcov x).mpr)
        (ht.stop_le hbase.symm fun x => (hcov x).mp)
      have hhead : r = t := by
        cases r
        cases t
        unfold Region.stop at hstop
        simp only [Region.mk.injEq] at hbase hstop ⊢
        omega
      have htail : rs = ts := by
        refine ih hr.tail ht.tail fun x => ?_
        rw [hr.covered_tail_iff, ht.covered_tail_iff, hcov x, hstop]
      rw [hhead, htail]

end Separated

end AimKernel
