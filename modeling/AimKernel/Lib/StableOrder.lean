import Mathlib.Data.List.Sort
import Mathlib.Data.List.TakeWhile

/-!
# AimKernel.Lib.StableOrder

Collections kept in ascending order of a key, equal keys in order of arrival.

`StableSorted key added xs` relates such a list `xs` to the list `added` of its elements
in order of arrival. Inserting behind all elements with a key that is not larger
(`StableSorted.insert`) and erasing (`StableSorted.erase`) keep it, and a search for a
key finds the earliest arrival (`StableSorted.find?_eq`).
-/

namespace AimKernel

variable {α κ : Type} [LinearOrder κ] {key : α → κ} {added xs : List α} {a b d : α}

/-- `a` stands before `b` in the list. -/
def Before (l : List α) (a b : α) : Prop := [a, b].Sublist l

theorem before_pairwise (l : List α) : l.Pairwise (Before l) :=
  List.pairwise_iff_forall_sublist.mpr id

theorem Before.antisymm (hnd : added.Nodup) (hab : Before added a b) (hba : Before added b a) :
    a = b := by
  induction added with
  | nil => cases hab
  | cons c l ih =>
    obtain ⟨hc, hl⟩ := List.nodup_cons.mp hnd
    cases hab with
    | cons _ hab =>
      cases hba with
      | cons _ hba => exact ih hl hab hba
      | cons_cons _ _ => exact absurd (hab.subset (by simp)) hc
    | cons_cons _ hb =>
      cases hba with
      | cons _ hba => exact absurd (hba.subset (by simp)) hc
      | cons_cons _ _ => rfl

/-- `xs` holds the elements of `added`, ordered by key and then by arrival. -/
structure StableSorted (key : α → κ) (added xs : List α) : Prop where
  perm : xs.Perm added
  order : xs.Pairwise fun a b => key a < key b ∨ key a = key b ∧ Before added a b

namespace StableSorted

theorem nil : StableSorted key [] [] := ⟨.refl _, .nil⟩

theorem mem_iff (h : StableSorted key added xs) : a ∈ xs ↔ a ∈ added := h.perm.mem_iff

theorem congr {key' : α → κ} (h : StableSorted key added xs)
    (hkey : ∀ x ∈ added, key' x = key x) : StableSorted key' added xs := by
  refine ⟨h.perm, h.order.imp_of_mem fun {x y} hx hy hxy => ?_⟩
  rw [hkey x (h.mem_iff.mp hx), hkey y (h.mem_iff.mp hy)]
  exact hxy

/-- A new element goes behind those whose key is not larger. -/
theorem insert (h : StableSorted key added xs) :
    StableSorted key (added ++ [d])
      (xs.takeWhile (fun x => !decide (key d < key x)) ++
        d :: xs.dropWhile fun x => !decide (key d < key x)) := by
  set front := xs.takeWhile fun x => !decide (key d < key x) with hfront
  set back := xs.dropWhile fun x => !decide (key d < key x) with hback
  have hsplit : front ++ back = xs := List.takeWhile_append_dropWhile
  have hsmall : ∀ x ∈ front, key x ≤ key d := by
    intro x hx
    have := List.mem_takeWhile_imp hx
    simpa using this
  -- the first element behind is larger, and the others are not smaller than it
  have hlarge : ∀ y ∈ back, key d < key y := by
    have hsorted : back.Pairwise fun a b => key a ≤ key b := by
      refine (h.order.sublist (List.dropWhile_sublist _)).imp fun {x y} hxy => ?_
      rcases hxy with hlt | ⟨heq, -⟩
      · exact hlt.le
      · exact heq.le
    cases hb : back with
    | nil => exact fun y hy => absurd hy List.not_mem_nil
    | cons z zs =>
      have hz : key d < key z := by
        have hne : xs.dropWhile (fun x => !decide (key d < key x)) ≠ [] := by
          rw [← hback, hb]
          simp
        have hnot := List.head_dropWhile_not _ hne
        simp only [← hback, hb, List.head_cons] at hnot
        simpa using hnot
      intro y hy
      rw [hb] at hsorted
      rcases List.mem_cons.mp hy with rfl | hy
      · exact hz
      · exact lt_of_lt_of_le hz ((List.pairwise_cons.mp hsorted).1 y hy)
  have hlast : ∀ x ∈ xs, Before (added ++ [d]) x d := fun x hx =>
    List.Sublist.append (List.singleton_sublist.mpr (h.mem_iff.mp hx)) (List.Sublist.refl [d])
  refine ⟨?_, ?_⟩
  · refine (List.perm_middle.trans ?_).trans List.perm_append_comm
    rw [hsplit]
    exact h.perm.cons d
  · have hold : xs.Pairwise fun a b =>
        key a < key b ∨ key a = key b ∧ Before (added ++ [d]) a b :=
      h.order.imp fun {x y} hxy =>
        hxy.imp id fun ⟨heq, hbef⟩ => ⟨heq, hbef.trans (List.sublist_append_left _ _)⟩
    rw [← hsplit, List.pairwise_append] at hold
    obtain ⟨hf, hb, hfb⟩ := hold
    refine List.pairwise_append.mpr ⟨hf, List.pairwise_cons.mpr ⟨?_, hb⟩, ?_⟩
    · exact fun y hy => .inl (hlarge y hy)
    · intro x hx y hy
      rcases List.mem_cons.mp hy with rfl | hy
      · have hx' : x ∈ xs := hsplit ▸ List.mem_append_left _ hx
        rcases (hsmall x hx).lt_or_eq with hlt | heq
        · exact .inl hlt
        · exact .inr ⟨heq, hlast x hx'⟩
      · exact hfb x hx y hy

theorem erase [DecidableEq α] (h : StableSorted key added xs) (hnd : added.Nodup) (d : α) :
    StableSorted key (added.erase d) (xs.erase d) := by
  have hxs : xs.Nodup := h.perm.nodup_iff.mpr hnd
  refine ⟨h.perm.erase d, ?_⟩
  refine (h.order.sublist (List.erase_sublist)).imp_of_mem fun {x y} hx hy hxy => ?_
  have hxd : x ≠ d := ((List.Nodup.mem_erase_iff hxs).mp hx).1
  have hyd : y ≠ d := ((List.Nodup.mem_erase_iff hxs).mp hy).1
  refine hxy.imp id fun ⟨heq, hbef⟩ => ⟨heq, ?_⟩
  have hsub := hbef.erase d
  rwa [List.erase_of_not_mem (by simp [hxd.symm, hyd.symm])] at hsub

/-- The elements with a given key stand in order of arrival. -/
theorem filter_eq (h : StableSorted key added xs) (hnd : added.Nodup) (k : κ) :
    (xs.filter fun x => decide (key x = k)) = added.filter fun x => decide (key x = k) := by
  have hfirst : (xs.filter fun x => decide (key x = k)).Pairwise (Before added) := by
    refine (h.order.sublist List.filter_sublist).imp_of_mem fun {x y} hx hy hxy => ?_
    simp only [List.mem_filter, decide_eq_true_eq] at hx hy
    rcases hxy with hlt | ⟨-, hbef⟩
    · rw [hx.2, hy.2] at hlt
      exact absurd hlt (lt_irrefl k)
    · exact hbef
  refine List.Perm.eq_of_pairwise (fun x y _ _ => Before.antisymm hnd) hfirst ?_ ?_
  · exact (before_pairwise added).sublist List.filter_sublist
  · exact h.perm.filter _

/-- The first element with a given key is the earliest arrival. -/
theorem find?_eq (h : StableSorted key added xs) (hnd : added.Nodup) (k : κ) :
    (xs.find? fun x => decide (key x = k)) = added.find? fun x => decide (key x = k) := by
  rw [← List.head?_filter, ← List.head?_filter, h.filter_eq hnd]

end StableSorted

end AimKernel
