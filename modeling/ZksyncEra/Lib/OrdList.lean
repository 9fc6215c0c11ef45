import Mathlib

/-!
Ordered sets as ascending lists under a comparison function: the operations of a B-tree set.

The comparison need not separate all elements: insertion keeps an element that compares equal to
the new one, and removal removes the elements that compare equal to the one given. On a list
sorted strictly by the comparison these are the set's own operations, and `splitOff` is its split
at a bound.
-/

namespace OrdList

variable {α : Type} (cmp : α → α → Ordering)

/-- `insert`: `x` at its place, unless an element comparing equal is there. -/
def insert (x : α) : List α → List α
  | [] => [x]
  | y :: ys =>
    match cmp x y with
    | .lt => x :: y :: ys
    | .eq => y :: ys
    | .gt => y :: insert x ys

/-- `remove`: drops the elements comparing equal to `x`. -/
def erase (x : α) (l : List α) : List α :=
  l.filter fun y => cmp y x != .eq

/-- `split_off`: the elements below `x`, which stay, and those from `x` on, which are split off. -/
def splitOff (x : α) (l : List α) : List α × List α :=
  (l.filter fun y => cmp y x == .lt, l.filter fun y => cmp y x != .lt)

/-- `collect` into a set: the elements inserted one after another. -/
def ofList (l : List α) : List α :=
  l.foldl (fun set x => insert cmp x set) []

/-- `iter().rfind(p)`: the greatest element satisfying `p`. -/
def rfind (p : α → Bool) (l : List α) : Option α :=
  l.reverse.find? p

theorem mem_insert {x y : α} {l : List α} (member : y ∈ insert cmp x l) : y = x ∨ y ∈ l := by
  induction l with
  | nil => simpa [insert] using member
  | cons z zs ih =>
    unfold insert at member
    split at member
    · simpa using member
    · exact .inr member
    · rcases List.mem_cons.mp member with rfl | later
      · exact .inr List.mem_cons_self
      · rcases ih later with rfl | inTail
        · exact .inl rfl
        · exact .inr (List.mem_cons_of_mem z inTail)


/-! ### Strictly ordered lists

On a list sorted strictly under a lawful comparison, every element compares equal only to
itself, so the operations above are those of a set: `insert` adds an element that nothing equals,
`erase` and `splitOff` cut the list at the element, and `rfind` finds the greatest element with
the property. -/

/-- The list is strictly ascending under `cmp`. -/
def Sorted (l : List α) : Prop :=
  l.Pairwise fun a b => cmp a b = .lt

section Sorted

variable {cmp}

/-- An element that nothing in the list equals is added. -/
theorem insert_perm {x : α} {l : List α} (distinct : ∀ y ∈ l, cmp x y ≠ .eq) :
    (insert cmp x l).Perm (x :: l) := by
  induction l with
  | nil => exact List.Perm.refl _
  | cons y ys ih =>
    have rest : ∀ z ∈ ys, cmp x z ≠ .eq := fun z member => distinct z (List.mem_cons_of_mem y member)
    unfold OrdList.insert
    split
    case h_1 => exact List.Perm.refl _
    case h_2 same => exact absurd same (distinct y List.mem_cons_self)
    case h_3 => exact ((ih rest).cons y).trans (List.Perm.swap x y ys)

/-- A member of a sorted list sits between the elements below it and those above it. -/
theorem Sorted.split {x : α} {l : List α} (sorted : Sorted cmp l) (member : x ∈ l) :
    ∃ l₁ l₂, l = l₁ ++ x :: l₂ ∧ (∀ y ∈ l₁, cmp y x = .lt) ∧ (∀ y ∈ l₂, cmp x y = .lt) := by
  obtain ⟨l₁, l₂, rfl⟩ := List.append_of_mem member
  have parts := List.pairwise_append.mp sorted
  exact ⟨l₁, l₂, rfl, fun y below => parts.2.2 y below x List.mem_cons_self,
    (List.pairwise_cons.mp parts.2.1).1⟩

theorem Sorted.erase {x : α} {l : List α} (sorted : Sorted cmp l) : Sorted cmp (erase cmp x l) :=
  sorted.filter _

variable [Std.TransCmp cmp]

theorem cmp_self (a : α) : cmp a a = .eq := by
  have swapped : cmp a a = (cmp a a).swap := Std.OrientedCmp.eq_swap
  cases h : cmp a a <;> rw [h] at swapped <;> cases swapped

theorem Sorted.insert {x : α} {l : List α} (sorted : Sorted cmp l) : Sorted cmp (insert cmp x l) := by
  induction l with
  | nil => exact List.pairwise_singleton _ x
  | cons y ys ih =>
    have tail := List.pairwise_cons.mp sorted
    unfold OrdList.insert
    split
    case h_1 below => exact List.Pairwise.cons (fun z member => by
      rcases List.mem_cons.mp member with rfl | later
      · exact below
      · exact Std.TransCmp.lt_trans below (tail.1 z later)) sorted
    case h_2 => exact sorted
    case h_3 above =>
      refine List.Pairwise.cons (fun z member => ?_) (ih tail.2)
      rcases mem_insert cmp member with rfl | later
      · exact Std.OrientedCmp.gt_iff_lt.mp above
      · exact tail.1 z later

theorem erase_of_split {x : α} {l₁ l₂ : List α} (below : ∀ y ∈ l₁, cmp y x = .lt)
    (above : ∀ y ∈ l₂, cmp x y = .lt) : erase cmp x (l₁ ++ x :: l₂) = l₁ ++ l₂ := by
  have keepBelow : l₁.filter (fun y => cmp y x != .eq) = l₁ :=
    List.filter_eq_self.mpr fun y member => by simp [below y member]
  have keepAbove : l₂.filter (fun y => cmp y x != .eq) = l₂ :=
    List.filter_eq_self.mpr fun y member => by
      simp [Std.OrientedCmp.gt_iff_lt.mpr (above y member)]
  have dropped : (cmp x x != .eq) = false := by simp [cmp_self x]
  simp only [erase, List.filter_append, List.filter_cons, dropped, Bool.false_eq_true, if_false,
    keepBelow, keepAbove]

/-- Removing a member of a sorted list removes just that member. -/
theorem Sorted.erase_perm {x : α} {l : List α} (sorted : Sorted cmp l) (member : x ∈ l) :
    (x :: OrdList.erase cmp x l).Perm l := by
  obtain ⟨l₁, l₂, rfl, below, above⟩ := sorted.split member
  rw [erase_of_split below above]
  exact List.perm_middle.symm

/-- Removing from a sorted list one element of a multiset it stands for leaves the rest. -/
theorem Sorted.erase_perm_of_perm {x : α} {l rest : List α} (sorted : Sorted cmp l)
    (perm : l.Perm (x :: rest)) : (OrdList.erase cmp x l).Perm rest :=
  ((sorted.erase_perm (perm.symm.subset List.mem_cons_self)).trans perm).cons_inv

/-- Splitting a sorted list at a member keeps the elements below it and splits off the member
followed by the elements above it. -/
theorem splitOff_of_split {x : α} {l₁ l₂ : List α} (below : ∀ y ∈ l₁, cmp y x = .lt)
    (above : ∀ y ∈ l₂, cmp x y = .lt) :
    splitOff cmp x (l₁ ++ x :: l₂) = (l₁, x :: l₂) := by
  have keptBelow : l₁.filter (fun y => cmp y x == .lt) = l₁ :=
    List.filter_eq_self.mpr fun y member => by simp [below y member]
  have droppedAbove : l₂.filter (fun y => cmp y x == .lt) = [] :=
    List.filter_eq_nil_iff.mpr fun y member => by
      simp [Std.OrientedCmp.gt_iff_lt.mpr (above y member)]
  have splitBelow : l₁.filter (fun y => cmp y x != .lt) = [] :=
    List.filter_eq_nil_iff.mpr fun y member => by simp [below y member]
  have splitAbove : l₂.filter (fun y => cmp y x != .lt) = l₂ :=
    List.filter_eq_self.mpr fun y member => by
      simp [Std.OrientedCmp.gt_iff_lt.mpr (above y member)]
  simp only [splitOff, List.filter_append, List.filter_cons, cmp_self, keptBelow, droppedAbove,
    splitBelow, splitAbove]
  simp

/-- In a sorted list split at a member, the elements above the member are those after it. -/
theorem filter_above_of_split {x : α} {l₁ l₂ : List α} (below : ∀ y ∈ l₁, cmp y x = .lt)
    (above : ∀ y ∈ l₂, cmp x y = .lt) :
    (l₁ ++ x :: l₂).filter (fun y => cmp x y == .lt) = l₂ := by
  have droppedBelow : l₁.filter (fun y => cmp x y == .lt) = [] :=
    List.filter_eq_nil_iff.mpr fun y member => by
      simp [Std.OrientedCmp.gt_iff_lt.mpr (below y member)]
  have keptAbove : l₂.filter (fun y => cmp x y == .lt) = l₂ :=
    List.filter_eq_self.mpr fun y member => by simp [above y member]
  simp only [List.filter_append, List.filter_cons, cmp_self, droppedBelow, keptAbove]
  simp

/-- `rfind` finds a member with the property after which no member has it. -/
theorem rfind_eq_some {p : α → Bool} {x : α} {l : List α} (found : rfind p l = some x) :
    p x = true ∧ ∃ l₁ l₂, l = l₁ ++ x :: l₂ ∧ ∀ y ∈ l₂, p y = false := by
  obtain ⟨holds, after, before, reversed, failing⟩ := List.find?_eq_some_iff_append.mp found
  refine ⟨holds, before.reverse, after.reverse, ?_, fun y member => ?_⟩
  · rw [← List.reverse_reverse l, reversed]
    simp
  · simpa using failing y (List.mem_reverse.mp member)

theorem rfind_eq_none {p : α → Bool} {l : List α} : rfind p l = none ↔ ∀ y ∈ l, p y = false := by
  simp [rfind, List.find?_eq_none]

/-- In a sorted list, `rfind` finds the greatest member with the property. -/
theorem Sorted.rfind_greatest {p : α → Bool} {x : α} {l : List α} (sorted : Sorted cmp l)
    (found : rfind p l = some x) : ∀ y ∈ l, p y = true → cmp y x ≠ .gt := by
  obtain ⟨_, l₁, l₂, rfl, failing⟩ := rfind_eq_some found
  intro y member holds
  rcases List.mem_append.mp member with early | middle
  · have parts := List.pairwise_append.mp sorted
    rw [parts.2.2 y early x List.mem_cons_self]
    decide
  · rcases List.mem_cons.mp middle with rfl | later
    · rw [(cmp_self y : cmp y y = .eq)]
      decide
    · rw [failing y later] at holds
      cases holds

/-- Inserting one after another the members of a list whose members are pairwise unequal, and
unequal to those of a sorted start, gives a sorted permutation of both. -/
theorem foldl_insert {l s : List α} (sorted : Sorted cmp s)
    (unequal : l.Pairwise fun a b => cmp a b ≠ .eq) (fresh : ∀ x ∈ l, ∀ y ∈ s, cmp x y ≠ .eq) :
    Sorted cmp (l.foldl (fun set x => insert cmp x set) s) ∧
      (l.foldl (fun set x => insert cmp x set) s).Perm (l.reverse ++ s) := by
  induction l generalizing s with
  | nil => exact ⟨sorted, List.Perm.refl _⟩
  | cons x xs ih =>
    have head := List.pairwise_cons.mp unequal
    have step := insert_perm (fresh x List.mem_cons_self)
    have fresh' : ∀ z ∈ xs, ∀ y ∈ insert cmp x s, cmp z y ≠ .eq := by
      intro z member y inserted
      rcases mem_insert cmp inserted with rfl | old
      · exact fun same => head.1 z member (Std.OrientedCmp.eq_symm same)
      · exact fresh z (List.mem_cons_of_mem x member) y old
    obtain ⟨sorted', perm⟩ := ih sorted.insert head.2 fresh'
    refine ⟨sorted', perm.trans ?_⟩
    simpa using (step.append_left xs.reverse)

theorem Sorted.ofList {l : List α} (unequal : l.Pairwise fun a b => cmp a b ≠ .eq) :
    Sorted cmp (ofList cmp l) ∧ (ofList cmp l).Perm l := by
  obtain ⟨sorted, perm⟩ := foldl_insert (s := []) List.Pairwise.nil unequal
    (fun _ _ _ empty => by cases empty)
  exact ⟨sorted, perm.trans (by simp [List.reverse_perm l])⟩

end Sorted

end OrdList
