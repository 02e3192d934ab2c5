import AimKernel.Lib.Links
import Mathlib.Logic.Relation

/-!
# AimKernel.Proc.ProcTree

The process tree of `kern/proc/proctree.c`.

The children of a process are a doubly linked list that starts at `first_child` and ends
with `NULL`. Processes are addresses, and the four link fields of `struct proc` are maps on
them; `0` is `NULL`. `Family` adds to the links the children each process currently has,
newest first.

`proctree_remove` leaves the links of the removed process as they are, and
`proctree_add_child` does not write `prev_sibling`: a process that was not first among its
siblings comes back with a pointer into its old list. The lists are well formed in every run
in which a process is added with `prev_sibling == NULL` (`proctree_well_formed`), and as
soon as one is added otherwise they are not (`not_lists_of_stale`).

For the proofs the list of one parent is seen as a list between two sentinels
(`AimKernel.Lib.Links`): `head` stands for the parent's `first_child`, `tail` for the `NULL`
behind the last child.
-/

namespace AimKernel

/-- The fields of `struct proc` that form the tree. -/
structure ProcTree where
  parent : Nat → Nat
  firstChild : Nat → Nat
  nextSibling : Nat → Nat
  prevSibling : Nat → Nat

/-- How `proctree_remove` panics. -/
inductive ProcTreePanic
  /-- `"non-empty proc_tree node.\n"`. -/
  | nonEmpty
  /-- `"attempt to remove root node.\n"`. -/
  | root
  deriving Repr, DecidableEq

namespace ProcTree

/-- The links `proc_new` leaves. -/
def procNew : ProcTree := ⟨fun _ => 0, fun _ => 0, fun _ => 0, fun _ => 0⟩

/-- `proctree_add_child`. -/
def proctreeAddChild (child parent : Nat) (t : ProcTree) : ProcTree :=
  let t := { t with parent := Function.update t.parent child parent }
  let t := { t with nextSibling := Function.update t.nextSibling child (t.firstChild parent) }
  let t :=
    if t.firstChild parent ≠ 0 then
      { t with prevSibling := Function.update t.prevSibling (t.firstChild parent) child }
    else t
  { t with firstChild := Function.update t.firstChild parent child }

/-- `proctree_remove`. -/
def proctreeRemove (pos : Nat) (t : ProcTree) : Except ProcTreePanic ProcTree :=
  if t.firstChild pos ≠ 0 then .error .nonEmpty
  else if t.parent pos = 0 then .error .root
  else
    let father := t.parent pos
    let t :=
      if pos = t.firstChild father then
        { t with firstChild := Function.update t.firstChild father (t.nextSibling pos) }
      else t
    let t :=
      if t.prevSibling pos ≠ 0 then
        { t with
          nextSibling := Function.update t.nextSibling (t.prevSibling pos) (t.nextSibling pos) }
      else t
    let t :=
      if t.nextSibling pos ≠ 0 then
        { t with
          prevSibling := Function.update t.prevSibling (t.nextSibling pos) (t.prevSibling pos) }
      else t
    .ok t

/-- The chain `a, a->next_sibling, ...` up to `NULL`, of less than `fuel` processes. -/
def siblings (t : ProcTree) : Nat → Nat → Option (List Nat)
  | 0, _ => none
  | fuel + 1, a =>
    if a = 0 then some [] else (t.siblings fuel (t.nextSibling a)).map (a :: ·)

/-- The child list of `p` is well formed and holds `cs`. -/
structure Lists (t : ProcTree) (p : Nat) (cs : List Nat) : Prop where
  chain : ∃ fuel, t.siblings fuel (t.firstChild p) = some cs
  once : cs.Nodup
  parent : ∀ c ∈ cs, t.parent c = p
  first : ∀ c ∈ cs.head?, t.prevSibling c = 0
  inverse : ∀ l a b r, cs = l ++ a :: b :: r → t.nextSibling a = b ∧ t.prevSibling b = a

end ProcTree

/-! ### Runs -/

/-- The links, and the current children of every process. -/
structure Family where
  tree : ProcTree
  children : Nat → List Nat

namespace Family

/-- Processes as `proc_new` leaves them. -/
def start : Family := ⟨.procNew, fun _ => []⟩

/-- `d` is `a` or below it. -/
def Descends (s : Family) (d a : Nat) : Prop :=
  Relation.ReflTransGen (fun x y => y ∈ s.children x) a d

/-- `proctree_add_child(c, p)`. -/
def add (s : Family) (c p : Nat) : Family :=
  ⟨s.tree.proctreeAddChild c p, Function.update s.children p (c :: s.children p)⟩

/-- `c` is no longer a child of `p`, and the links are `tree'`. -/
def remove (s : Family) (c p : Nat) (tree' : ProcTree) : Family :=
  ⟨tree', Function.update s.children p ((s.children p).erase c)⟩

/-- One call. A child that is added meets `ok`. -/
inductive Step (ok : ProcTree → Nat → Prop) (s : Family) : Family → Prop
  /-- A process that is in no child list is added under one that is not below it. -/
  | add {c p : Nat} (hc : c ≠ 0) (hp : p ≠ 0) (hfree : ∀ q, c ∉ s.children q)
      (hbelow : ¬ s.Descends p c) (hok : ok s.tree c) :
      Step ok s (s.add c p)
  /-- A childless child is removed. -/
  | remove {c p : Nat} {tree' : ProcTree} (hc : c ∈ s.children p) (hleaf : s.children c = [])
      (hrun : s.tree.proctreeRemove c = .ok tree') :
      Step ok s (s.remove c p tree')

end Family

namespace ProcTree

variable {t : ProcTree} {p c : Nat} {cs : List Nat}

/-! ### Child lists between sentinels -/

/-- A pointer met when walking forwards. -/
def asNext (a : Nat) : Link Nat := if a = 0 then .tail else .node a

/-- A pointer met when walking backwards. -/
def asPrev (a : Nat) : Link Nat := if a = 0 then .head else .node a

variable {a b : Nat} {ds : List Nat}

@[simp] theorem asNext_zero : asNext 0 = .tail := rfl
@[simp] theorem asPrev_zero : asPrev 0 = .head := rfl
theorem asNext_of_ne (h : a ≠ 0) : asNext a = .node a := if_neg h
theorem asPrev_of_ne (h : a ≠ 0) : asPrev a = .node a := if_neg h

theorem asNext_eq_tail : asNext a = .tail ↔ a = 0 := by
  by_cases ha : a = 0 <;> simp [asNext, ha]

theorem asNext_eq_node : asNext a = .node b ↔ a = b ∧ a ≠ 0 := by
  by_cases ha : a = 0 <;> simp [asNext, ha]

theorem asPrev_eq_head : asPrev a = .head ↔ a = 0 := by
  by_cases ha : a = 0 <;> simp [asPrev, ha]

theorem asPrev_eq_node : asPrev a = .node b ↔ a = b ∧ a ≠ 0 := by
  by_cases ha : a = 0 <;> simp [asPrev, ha]

/-- The forward links of the list of `p`. -/
def next (t : ProcTree) (p : Nat) : Link Nat → Link Nat
  | .head => asNext (t.firstChild p)
  | .node a => asNext (t.nextSibling a)
  | .tail => .tail
  | .null => .null

/-- The backward links of a list that holds `cs`; there is none from its end. -/
def prev (t : ProcTree) (cs : List Nat) : Link Nat → Link Nat
  | .head => .head
  | .node a => asPrev (t.prevSibling a)
  | .tail => lastLink cs
  | .null => .null

/-- The list of `p` holds the nodes `cs`. -/
def Holds (t : ProcTree) (p : Nat) (cs : List Nat) : Prop := Linked (t.next p) (t.prev cs) cs

/-- The walk over a list ends behind its last node. -/
theorem siblings_eq {a : Link Nat} {fuel : Nat} (hchain : Chained (t.next p) a cs)
    (hb : t.next p a = asNext b) :
    t.siblings fuel b = if cs.length < fuel then some cs else none := by
  induction cs generalizing a b fuel with
  | nil =>
    have hzero : b = 0 := asNext_eq_tail.mp (hb.symm.trans hchain)
    cases fuel with
    | zero => rfl
    | succ fuel => simp [siblings, hzero]
  | cons c cs ih =>
    obtain ⟨hc, hrest⟩ := hchain
    obtain ⟨rfl, hne⟩ := asNext_eq_node.mp (hb.symm.trans hc)
    cases fuel with
    | zero => rfl
    | succ fuel =>
      rw [siblings, if_neg hne, ih hrest rfl]
      by_cases hlen : cs.length < fuel
      · rw [if_pos hlen, if_pos (by simpa using hlen)]
        rfl
      · rw [if_neg hlen, if_neg (by simpa using hlen)]
        rfl

/-- A chain that ends is determined by its first link. -/
theorem siblings_unique {n m : Nat} (hn : t.siblings n a = some cs) (hm : t.siblings m a = some ds)
    : cs = ds := by
  induction n generalizing m a cs ds with
  | zero => cases hn
  | succ n ih =>
    cases m with
    | zero => cases hm
    | succ m =>
      rw [siblings] at hn hm
      by_cases ha : a = 0
      · rw [if_pos ha] at hn hm
        exact Option.some.inj (hn.symm.trans hm)
      · rw [if_neg ha] at hn hm
        obtain ⟨cs', hcs, rfl⟩ := Option.map_eq_some_iff.mp hn
        obtain ⟨ds', hds, rfl⟩ := Option.map_eq_some_iff.mp hm
        rw [ih hcs hds]

theorem Holds.siblings_eq (h : t.Holds p cs) (fuel : Nat) :
    t.siblings fuel (t.firstChild p) = if cs.length < fuel then some cs else none :=
  ProcTree.siblings_eq h.chained rfl

theorem Holds.lists (h : t.Holds p cs) (hnodup : cs.Nodup)
    (hparent : ∀ c ∈ cs, t.parent c = p) : t.Lists p cs := by
  refine ⟨⟨cs.length + 1, ?_⟩, hnodup, hparent, ?_, ?_⟩
  · rw [h.siblings_eq, if_pos (Nat.lt_succ_self _)]
  · intro c hc
    obtain ⟨cs, rfl⟩ : ∃ r, cs = c :: r := by
      cases cs with
      | nil => cases hc
      | cons d r => exact ⟨r, by cases hc; rfl⟩
    have hlinks := (Linked.node_links (l := []) h).2
    exact asPrev_eq_head.mp hlinks
  · intro l a b r heq
    subst heq
    have ha := (Linked.node_links h).1
    have hcut : l ++ a :: b :: r = (l ++ [a]) ++ b :: r := by simp
    have hb := (h (l ++ [a]) (b :: r) hcut).2
    rw [firstLink_cons, lastLink_concat] at hb
    exact ⟨(asNext_eq_node.mp ha).1, (asPrev_eq_node.mp hb).1⟩

/-! ### Adding a child -/

theorem proctreeAddChild_parent (t : ProcTree) (c p a : Nat) :
    (t.proctreeAddChild c p).parent a = if a = c then p else t.parent a := by
  unfold proctreeAddChild
  dsimp only
  split <;> exact Function.update_apply ..

theorem proctreeAddChild_firstChild (t : ProcTree) (c p q : Nat) :
    (t.proctreeAddChild c p).firstChild q = if q = p then c else t.firstChild q := by
  unfold proctreeAddChild
  dsimp only
  split <;> exact Function.update_apply ..

theorem proctreeAddChild_nextSibling (t : ProcTree) (c p a : Nat) :
    (t.proctreeAddChild c p).nextSibling a =
      if a = c then t.firstChild p else t.nextSibling a := by
  unfold proctreeAddChild
  dsimp only
  split <;> exact Function.update_apply ..

theorem proctreeAddChild_prevSibling (t : ProcTree) (c p a : Nat) :
    (t.proctreeAddChild c p).prevSibling a =
      if t.firstChild p ≠ 0 ∧ a = t.firstChild p then c else t.prevSibling a := by
  unfold proctreeAddChild
  dsimp only
  by_cases hfirst : t.firstChild p ≠ 0
  · simp only [true_and, hfirst, ne_eq, not_false_eq_true]
    exact Function.update_apply ..
  · rw [if_neg hfirst, if_neg fun h => hfirst h.1]

/-- The first child is the first node of the list. -/
theorem Holds.asNext_firstChild (h : t.Holds p cs) : asNext (t.firstChild p) = firstLink cs :=
  (h [] cs rfl).1

theorem Holds.addChild (h : t.Holds p cs) (hnodup : cs.Nodup) (hc : c ≠ 0) (hnew : c ∉ cs)
    (hprev : t.prevSibling c = 0) : (t.proctreeAddChild c p).Holds p (c :: cs) := by
  have hfirst := h.asNext_firstChild
  have hne : t.firstChild p ≠ 0 → c ≠ t.firstChild p := by
    rintro hfc rfl
    rw [asNext_of_ne hfc] at hfirst
    exact hnew (firstLink_eq_node hfirst.symm)
  refine Linked.insert (l := []) h hnodup hnew ?_ ?_ ?_ ?_ ?_ ?_
  · simp [next, proctreeAddChild_firstChild, asNext_of_ne hc]
  · simpa [next, proctreeAddChild_nextSibling] using hfirst
  · have hsame : ¬ (t.firstChild p ≠ 0 ∧ c = t.firstChild p) := fun hand => hne hand.1 hand.2
    simp [prev, proctreeAddChild_prevSibling, hsame, hprev]
  · cases cs with
    | nil => rfl
    | cons d cs =>
      obtain ⟨heq, hnz⟩ := asNext_eq_node.mp hfirst
      simp [prev, proctreeAddChild_prevSibling, ← heq, hnz, asPrev_of_ne hc]
  · intro x hx hxc
    cases x with
    | head => exact absurd rfl hx
    | node a =>
      have hac : a ≠ c := fun heq => hxc (heq ▸ rfl)
      simp [next, proctreeAddChild_nextSibling, hac]
    | tail => rfl
    | null => rfl
  · intro x hx hxc
    cases x with
    | head => rfl
    | node a =>
      have hsame : ¬ (t.firstChild p ≠ 0 ∧ a = t.firstChild p) := by
        rintro ⟨hfc, rfl⟩
        exact hx ((asNext_of_ne hfc).symm.trans hfirst)
      simp only [prev, proctreeAddChild_prevSibling, if_neg hsame]
    | tail =>
      cases cs with
      | nil => exact absurd rfl hx
      | cons d cs => simp [prev, lastLink, List.getLast?_cons]
    | null => rfl

/-- The list of another parent does not change. -/
theorem Holds.addChild_other {q : Nat} (h : t.Holds q ds) (hp : t.Holds p cs) (hqp : q ≠ p)
    (hnew : c ∉ ds) (hdisj : ∀ d ∈ ds, d ∉ cs) :
    (t.proctreeAddChild c p).Holds q ds := by
  refine Linked.congr h ?_ ?_
  · rintro x (rfl | ⟨a, ha, rfl⟩)
    · simp [next, proctreeAddChild_firstChild, hqp]
    · have hac : a ≠ c := fun heq => hnew (heq ▸ ha)
      simp [next, proctreeAddChild_nextSibling, hac]
  · rintro x (rfl | ⟨a, ha, rfl⟩)
    · rfl
    · have hsame : ¬ (t.firstChild p ≠ 0 ∧ a = t.firstChild p) := by
        rintro ⟨hfc, rfl⟩
        exact hdisj _ ha (firstLink_eq_node
          (hp.asNext_firstChild.symm.trans (asNext_of_ne hfc)))
      simp only [prev, proctreeAddChild_prevSibling, if_neg hsame]

/-- A child that comes with an old `prev_sibling` spoils the list. -/
theorem not_lists_of_stale (h : t.Holds p cs) (hnew : c ∉ cs) (hprev : t.prevSibling c ≠ 0) :
    ¬ (t.proctreeAddChild c p).Lists p (c :: cs) := by
  intro hlists
  have hfirst := hlists.first c rfl
  have hsame : ¬ (t.firstChild p ≠ 0 ∧ c = t.firstChild p) := by
    rintro ⟨hfc, rfl⟩
    exact hnew (firstLink_eq_node (h.asNext_firstChild.symm.trans (asNext_of_ne hfc)))
  rw [proctreeAddChild_prevSibling, if_neg hsame] at hfirst
  exact hprev hfirst

/-! ### Removing a child -/

/-- The links `proctree_remove` leaves. -/
def unlinked (t : ProcTree) (pos : Nat) : ProcTree where
  parent := t.parent
  firstChild :=
    if pos = t.firstChild (t.parent pos) then
      Function.update t.firstChild (t.parent pos) (t.nextSibling pos)
    else t.firstChild
  nextSibling :=
    if t.prevSibling pos ≠ 0 then
      Function.update t.nextSibling (t.prevSibling pos) (t.nextSibling pos)
    else t.nextSibling
  prevSibling :=
    if t.nextSibling pos ≠ 0 then
      Function.update t.prevSibling (t.nextSibling pos) (t.prevSibling pos)
    else t.prevSibling

theorem proctreeRemove_eq {pos : Nat} (hleaf : t.firstChild pos = 0) (hroot : t.parent pos ≠ 0)
    (hself : t.prevSibling pos ≠ pos) : t.proctreeRemove pos = .ok (t.unlinked pos) := by
  have hnext (x : Nat) :
      Function.update t.nextSibling (t.prevSibling pos) x pos = t.nextSibling pos :=
    Function.update_of_ne hself.symm x t.nextSibling
  rw [proctreeRemove, if_neg (not_not.mpr hleaf), if_neg hroot]
  unfold unlinked
  by_cases hprev : t.prevSibling pos = 0 <;> by_cases hpos : t.nextSibling pos = 0
  all_goals
    by_cases hfirst : pos = t.firstChild (t.parent pos)
    · simp [if_pos hfirst, hprev, hpos, hnext]
    · simp [if_neg hfirst, hprev, hpos, hnext]

section Remove

variable {l r : List Nat}

theorem Holds.links (h : t.Holds p (l ++ c :: r)) :
    asNext (t.nextSibling c) = firstLink r ∧ asPrev (t.prevSibling c) = lastLink l :=
  Linked.node_links h

theorem Holds.ne_zero (h : t.Holds p (l ++ c :: r)) : c ≠ 0 := by
  have hnext : t.next p (lastLink l) = .node c := (h l (c :: r) rfl).1
  rcases List.eq_nil_or_concat l with rfl | ⟨l, x, rfl⟩
  · obtain ⟨heq, hne⟩ := asNext_eq_node.mp hnext
    exact heq ▸ hne
  · rw [List.concat_eq_append, lastLink_concat] at hnext
    obtain ⟨heq, hne⟩ := asNext_eq_node.mp hnext
    exact heq ▸ hne

/-- The left neighbour of a child is another process. -/
theorem Holds.prevSibling_ne (h : t.Holds p (l ++ c :: r)) (hnodup : (l ++ c :: r).Nodup) :
    t.prevSibling c ≠ c := by
  intro hself
  have hprev := h.links.2
  rw [hself, asPrev_of_ne h.ne_zero] at hprev
  have hleft : c ∈ l := lastLink_eq_node hprev.symm
  exact (List.nodup_append.mp hnodup).2.2 c hleft c (by simp) rfl

theorem unlinked_nextSibling {a : Nat} (h : asPrev (t.prevSibling c) ≠ .node a) :
    (t.unlinked c).nextSibling a = t.nextSibling a := by
  unfold unlinked
  dsimp only
  split
  next hne =>
    apply Function.update_of_ne
    intro heq
    exact h (by rw [asPrev_of_ne hne, heq])
  next => rfl

theorem unlinked_prevSibling {a : Nat} (h : asNext (t.nextSibling c) ≠ .node a) :
    (t.unlinked c).prevSibling a = t.prevSibling a := by
  unfold unlinked
  dsimp only
  split
  next hne =>
    apply Function.update_of_ne
    intro heq
    exact h (by rw [asNext_of_ne hne, heq])
  next => rfl

theorem unlinked_firstChild {q : Nat} (h : q = t.parent c → t.firstChild q ≠ c) :
    (t.unlinked c).firstChild q = t.firstChild q := by
  unfold unlinked
  split
  next hfirst =>
    apply Function.update_of_ne
    intro heq
    exact h heq (heq ▸ hfirst.symm)
  next => rfl

/-- The left neighbour points at the right one. -/
theorem Holds.unlinked_next (h : t.Holds p (l ++ c :: r)) (hparent : t.parent c = p) :
    (t.unlinked c).next p (lastLink l) = firstLink r := by
  obtain ⟨hnext, hprev⟩ := h.links
  rcases List.eq_nil_or_concat l with rfl | ⟨l, x, rfl⟩
  · have hfirst : t.firstChild p = c := (asNext_eq_node.mp h.asNext_firstChild).1
    rw [← hnext]
    simp [next, unlinked, hparent, hfirst]
  · rw [List.concat_eq_append, lastLink_concat] at hprev ⊢
    obtain ⟨heq, hne⟩ := asPrev_eq_node.mp hprev
    rw [← hnext]
    simp [next, unlinked, heq, heq ▸ hne]

/-- The right neighbour points at the left one. -/
theorem Holds.unlinked_prev (h : t.Holds p (l ++ c :: r)) :
    (t.unlinked c).prev (l ++ r) (firstLink r) = lastLink l := by
  obtain ⟨hnext, hprev⟩ := h.links
  cases r with
  | nil => simp [prev]
  | cons y r =>
    obtain ⟨heq, hne⟩ := asNext_eq_node.mp hnext
    rw [← hprev]
    simp [prev, unlinked, heq, heq ▸ hne]

theorem Holds.unlinked (h : t.Holds p (l ++ c :: r)) (hnodup : (l ++ c :: r).Nodup)
    (hparent : t.parent c = p) : (t.unlinked c).Holds p (l ++ r) := by
  obtain ⟨hnext, hprev⟩ := h.links
  refine Linked.remove h hnodup (h.unlinked_next hparent) h.unlinked_prev ?_ ?_
  · intro x hx hxc
    cases x with
    | head =>
      -- `c` is not the first child, which is on its left
      have hfirst : t.firstChild p ≠ c := by
        cases l with
        | nil => exact absurd rfl hx
        | cons y l =>
          rw [(asNext_eq_node.mp h.asNext_firstChild).1]
          rintro rfl
          simp at hnodup
      exact congrArg asNext (unlinked_firstChild fun _ => hfirst)
    | node a => exact congrArg asNext (unlinked_nextSibling fun heq => hx (heq ▸ hprev))
    | tail => rfl
    | null => rfl
  · intro x hx hxc
    cases x with
    | head => rfl
    | node a => exact congrArg asPrev (unlinked_prevSibling fun heq => hx (heq ▸ hnext))
    | tail =>
      cases r with
      | nil => exact absurd rfl hx
      | cons y r => simp [prev, lastLink, List.getLast?_append, List.getLast?_cons]
    | null => rfl

/-- The list of another parent does not change. -/
theorem Holds.unlinked_other {q : Nat} {ds : List Nat} (h : t.Holds q ds)
    (hp : t.Holds p (l ++ c :: r)) (hparent : t.parent c = p) (hqp : q ≠ p)
    (hdisj : ∀ d ∈ ds, d ∉ l ++ c :: r) : (t.unlinked c).Holds q ds := by
  obtain ⟨hnext, hprev⟩ := hp.links
  refine Linked.congr h ?_ ?_
  · rintro x (rfl | ⟨a, ha, rfl⟩)
    · exact congrArg asNext (unlinked_firstChild fun heq => absurd (heq.trans hparent) hqp)
    · refine congrArg asNext (unlinked_nextSibling fun heq => hdisj a ha ?_)
      exact List.mem_append_left _ (lastLink_eq_node (hprev.symm.trans heq))
  · rintro x (rfl | ⟨a, ha, rfl⟩)
    · rfl
    · refine congrArg asPrev (unlinked_prevSibling fun heq => hdisj a ha ?_)
      exact List.mem_append_right _ (List.mem_cons_of_mem _
        (firstLink_eq_node (hnext.symm.trans heq)))

end Remove

end ProcTree

/-! ### The invariant -/

namespace Family

variable {s s' : Family} {c p : Nat}

/-- Every process's list holds its current children. -/
structure Inv (s : Family) : Prop where
  holds : ∀ p, s.tree.Holds p (s.children p)
  nodup : ∀ p, (s.children p).Nodup
  parent : ∀ p, ∀ c ∈ s.children p, s.tree.parent c = p
  null : s.children 0 = []

theorem start_inv : start.Inv := by
  refine ⟨fun p => ?_, fun p => List.nodup_nil, fun p c hc => absurd hc List.not_mem_nil, rfl⟩
  intro l r hsplit
  obtain ⟨rfl, rfl⟩ := List.append_eq_nil_iff.mp hsplit.symm
  exact ⟨rfl, rfl⟩

theorem Inv.lists (h : s.Inv) (p : Nat) : s.tree.Lists p (s.children p) :=
  (h.holds p).lists (h.nodup p) (h.parent p)

theorem Inv.disjoint (h : s.Inv) {q : Nat} (hqp : q ≠ p) : ∀ d ∈ s.children q, d ∉ s.children p :=
  fun d hq hp => hqp ((h.parent q d hq).symm.trans (h.parent p d hp))

theorem Inv.add (h : s.Inv) (hc : c ≠ 0) (hp : p ≠ 0) (hfree : ∀ q, c ∉ s.children q)
    (hprev : s.tree.prevSibling c = 0) :
    (s.add c p).Inv := by
  unfold Family.add
  refine ⟨fun q => ?_, fun q => ?_, fun q d hd => ?_, ?_⟩
  · by_cases hqp : q = p
    · subst hqp
      simpa using (h.holds q).addChild (h.nodup q) hc (hfree q) hprev
    · simpa [hqp] using (h.holds q).addChild_other (h.holds p) hqp (hfree q) (h.disjoint hqp)
  · by_cases hqp : q = p
    · subst hqp
      simpa using ⟨hfree q, h.nodup q⟩
    · simpa [hqp] using h.nodup q
  · rw [ProcTree.proctreeAddChild_parent]
    by_cases hqp : q = p
    · subst hqp
      rcases List.mem_cons.mp (by simpa using hd) with rfl | hd
      · exact if_pos rfl
      · have hne : d ≠ c := fun heq => hfree q (heq ▸ hd)
        rw [if_neg hne]
        exact h.parent q d hd
    · have hold : d ∈ s.children q := by simpa [hqp] using hd
      have hne : d ≠ c := fun heq => hfree q (heq ▸ hold)
      rw [if_neg hne]
      exact h.parent q d hold
  · simpa [hp.symm] using h.null

theorem Inv.remove_eq (h : s.Inv) (hc : c ∈ s.children p) (hleaf : s.children c = []) :
    s.tree.proctreeRemove c = .ok (s.tree.unlinked c) := by
  have hparent := h.parent p c hc
  refine ProcTree.proctreeRemove_eq ?_ ?_ ?_
  · have hfirst := (h.holds c).asNext_firstChild
    rw [hleaf] at hfirst
    exact ProcTree.asNext_eq_tail.mp hfirst
  · rw [hparent]
    rintro rfl
    rw [h.null] at hc
    cases hc
  · obtain ⟨l, r, heq⟩ := List.append_of_mem hc
    have hholds := h.holds p
    have hnodup := h.nodup p
    rw [heq] at hholds hnodup
    exact hholds.prevSibling_ne hnodup

theorem Inv.remove (h : s.Inv) (hc : c ∈ s.children p) :
    (s.remove c p (s.tree.unlinked c)).Inv := by
  have hparent := h.parent p c hc
  obtain ⟨l, r, heq⟩ := List.append_of_mem hc
  have hholds := h.holds p
  have hnodup := h.nodup p
  rw [heq] at hholds hnodup
  have herase : (s.children p).erase c = l ++ r := by
    have hleft : c ∉ l := fun hl => (List.nodup_append.mp hnodup).2.2 c hl c (by simp) rfl
    rw [heq, List.erase_append_right _ hleft, List.erase_cons_head]
  unfold Family.remove
  refine ⟨fun q => ?_, fun q => ?_, fun q d hd => ?_, ?_⟩
  · by_cases hqp : q = p
    · subst hqp
      simpa [herase] using hholds.unlinked hnodup hparent
    · have hdisj := h.disjoint hqp
      rw [heq] at hdisj
      simpa [hqp] using (h.holds q).unlinked_other hholds hparent hqp hdisj
  · by_cases hqp : q = p
    · subst hqp
      simpa using (h.nodup q).erase c
    · simpa [hqp] using h.nodup q
  · by_cases hqp : q = p
    · subst hqp
      exact h.parent q d (List.mem_of_mem_erase (by simpa using hd))
    · exact h.parent q d (by simpa [hqp] using hd)
  · have hp : p ≠ 0 := by
      rintro rfl
      rw [h.null] at hc
      cases hc
    simpa [hp.symm] using h.null

/-- A child is added with `prev_sibling == NULL`. -/
def Unlinked (t : ProcTree) (c : Nat) : Prop := t.prevSibling c = 0

instance (t : ProcTree) (c : Nat) : Decidable (Unlinked t c) :=
  inferInstanceAs (Decidable (t.prevSibling c = 0))

theorem Step.inv (hstep : Step Unlinked s s') (h : s.Inv) : s'.Inv := by
  cases hstep with
  | add hc hp hfree _ hok => exact h.add hc hp hfree hok
  | remove hc hleaf hrun =>
    rw [h.remove_eq hc hleaf] at hrun
    cases hrun
    exact h.remove hc

theorem inv_of_run (hrun : Relation.ReflTransGen (Step Unlinked) start s) : s.Inv := by
  induction hrun with
  | refl => exact start_inv
  | tail _ hstep ih => exact hstep.inv ih

/-- The process tree is well formed: in every run in which children are added with
`prev_sibling == NULL`, the list of every process is finite, holds exactly its current
children, once each and with mutually inverse links; removing a childless child succeeds
and leaves the chains of all other parents as they are. -/
theorem proctree_well_formed (hrun : Relation.ReflTransGen (Step Unlinked) start s) :
    (∀ p, s.tree.Lists p (s.children p)) ∧
      ∀ p, ∀ c ∈ s.children p, s.children c = [] →
        ∃ tree', s.tree.proctreeRemove c = .ok tree' ∧
          ∀ q, q ≠ p → ∀ fuel, tree'.siblings fuel (tree'.firstChild q) =
            s.tree.siblings fuel (s.tree.firstChild q) := by
  have hinv := inv_of_run hrun
  refine ⟨hinv.lists, fun p c hc hleaf => ⟨_, hinv.remove_eq hc hleaf, fun q hqp fuel => ?_⟩⟩
  have hafter := (hinv.remove hc).holds q
  rw [show (s.remove c p (s.tree.unlinked c)).children q = s.children q from
    Function.update_of_ne hqp _ _] at hafter
  change (s.tree.unlinked c).Holds q _ at hafter
  rw [hafter.siblings_eq, (hinv.holds q).siblings_eq]

/-- Nothing is below a childless process but itself. -/
theorem not_descends_of_leaf {d : Nat} (hleaf : s.children c = []) (hne : d ≠ c) :
    ¬ s.Descends d c := by
  intro h
  cases h.cases_head with
  | inl heq => exact hne heq.symm
  | inr hstep =>
    obtain ⟨x, hx, -⟩ := hstep
    rw [hleaf] at hx
    cases hx

/-- Adding a childless process that is in no list. -/
theorem Step.add_leaf {ok : ProcTree → Nat → Prop} (hcp : c ≠ 0 ∧ p ≠ 0 ∧ p ≠ c)
    (hfree : ∀ q, c ∉ s.children q) (hleaf : s.children c = []) (hok : ok s.tree c) :
    Step ok s (s.add c p) :=
  .add hcp.1 hcp.2.1 hfree (not_descends_of_leaf hleaf hcp.2.2) hok

/-- Two children of process 1; the first of them is removed and added under process 2. -/
theorem proctree_well_formed_readded :
    ∃ s, Relation.ReflTransGen (Step Unlinked) start s ∧ s.children 1 = [3] ∧
      s.children 2 = [4] ∧
      (∀ p, s.tree.Lists p (s.children p)) ∧
      ∀ p, ∀ c ∈ s.children p, s.children c = [] →
        ∃ tree', s.tree.proctreeRemove c = .ok tree' ∧
          ∀ q, q ≠ p → ∀ fuel, tree'.siblings fuel (tree'.firstChild q) =
            s.tree.siblings fuel (s.tree.firstChild q) := by
  let s1 := start.add 3 1
  let s2 := s1.add 4 1
  let s3 := s2.remove 4 1 (s2.tree.unlinked 4)
  have h1 : Step Unlinked start s1 := .add_leaf (by decide) (fun q => List.not_mem_nil) rfl rfl
  have h2 : Step Unlinked s1 s2 := .add_leaf (by decide) (fun q => by
    simp [s1, add, start, Function.update_apply]) (by decide) (by decide)
  have h3 : Step Unlinked s2 s3 := .remove (by decide) (by decide)
    (ProcTree.proctreeRemove_eq (by decide) (by decide) (by decide))
  have h4 : Step Unlinked s3 (s3.add 4 2) := .add_leaf (by decide) (fun q => by
    simp [s3, s2, s1, remove, add, start, Function.update_apply]) (by decide) (by decide)
  have hrun := (((Relation.ReflTransGen.single h1).tail h2).tail h3).tail h4
  exact ⟨_, hrun, by decide, by decide, proctree_well_formed hrun⟩

/-- Process 3, the second child of process 1, is removed, added under process 2 in front of
process 5 and removed again: the write through its old `prev_sibling` puts process 5 on the
list of process 1. -/
theorem proctree_corrupted :
    ∃ s, Relation.ReflTransGen (Step fun _ _ => True) start s ∧ s.children 1 = [4] ∧
      s.tree.siblings 3 (s.tree.firstChild 1) = some [4, 5] ∧
      ¬ s.tree.Lists 1 (s.children 1) := by
  let s1 := start.add 3 1
  let s2 := s1.add 4 1
  let s3 := s2.remove 3 1 (s2.tree.unlinked 3)
  let s4 := s3.add 5 2
  let s5 := s4.add 3 2
  let s6 := s5.remove 3 2 (s5.tree.unlinked 3)
  have h1 : Step (fun _ _ => True) start s1 :=
    .add_leaf (by decide) (fun q => List.not_mem_nil) rfl trivial
  have h2 : Step (fun _ _ => True) s1 s2 := .add_leaf (by decide) (fun q => by
    simp [s1, add, start, Function.update_apply]) (by decide) trivial
  have h3 : Step (fun _ _ => True) s2 s3 := .remove (by decide) (by decide)
    (ProcTree.proctreeRemove_eq (by decide) (by decide) (by decide))
  have h4 : Step (fun _ _ => True) s3 s4 := .add_leaf (by decide) (fun q => by
    simp [s3, s2, s1, remove, add, start, Function.update_apply]) (by decide) trivial
  have h5 : Step (fun _ _ => True) s4 s5 := .add_leaf (by decide) (fun q => by
    simp only [s4, s3, s2, s1, remove, add, start, Function.update_apply]
    split
    · decide
    · split <;> decide) (by decide) trivial
  have h6 : Step (fun _ _ => True) s5 s6 := .remove (by decide) (by decide)
    (ProcTree.proctreeRemove_eq (by decide) (by decide) (by decide))
  have hchain : s6.tree.siblings 3 (s6.tree.firstChild 1) = some [4, 5] := by decide
  refine ⟨s6, (((((Relation.ReflTransGen.single h1).tail h2).tail h3).tail h4).tail h5).tail h6,
    by decide, hchain, fun hlists => ?_⟩
  obtain ⟨fuel, hwalk⟩ := hlists.chain
  exact absurd (ProcTree.siblings_unique hchain hwalk) (by decide)

end Family

end AimKernel
