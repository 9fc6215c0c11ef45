import Mathlib

/-!
Facts about lists that the model's loops need: `mapM` in `Option` when every step succeeds,
lists over `0..n` that hold something at a single index, and maps that are injective on the
elements of a list only.
-/

namespace List

variable {α β : Type}

/-! ### `Option`-valued `mapM` -/

section MapM

variable {R : α → β → Prop}

/-- An `Option`-valued `mapM` succeeds once `f` succeeds on every element, and relates the lists
elementwise. -/
theorem mapM_eq_some_of_isSome {f : α → Option β} :
    ∀ {xs : List α}, (∀ x ∈ xs, (f x).isSome) →
      ∃ ys, xs.mapM f = some ys ∧ List.Forall₂ (fun x y => f x = some y) xs ys
  | [], _ => ⟨[], rfl, .nil⟩
  | x :: xs, succeeds => by
    obtain ⟨y, hy⟩ := Option.isSome_iff_exists.mp (succeeds x List.mem_cons_self)
    obtain ⟨ys, rest, related⟩ :=
      mapM_eq_some_of_isSome fun x' member => succeeds x' (List.mem_cons_of_mem x member)
    exact ⟨y :: ys, by simp [hy, rest], .cons hy related⟩

theorem isSome_mapM {f : α → Option β} {xs : List α} (each : ∀ x ∈ xs, (f x).isSome) :
    (xs.mapM f).isSome := by
  obtain ⟨ys, mapped, -⟩ := mapM_eq_some_of_isSome each
  rw [mapped]
  rfl

/-- `mapM` with a step that is a total function `g` in disguise is `map g`. -/
theorem mapM_eq_some_map {f : α → Option β} (g : α → β) :
    ∀ {xs : List α}, (∀ x ∈ xs, f x = some (g x)) → xs.mapM f = some (xs.map g)
  | [], _ => rfl
  | x :: xs, each => by
    rw [List.mapM_cons, each x List.mem_cons_self,
      mapM_eq_some_map g fun y member => each y (List.mem_cons_of_mem x member)]
    rfl

theorem forall₂_exists_of_mem_left {xs : List α} {ys : List β} (related : List.Forall₂ R xs ys)
    {x : α} (member : x ∈ xs) : ∃ y ∈ ys, R x y := by
  induction related with
  | nil => cases member
  | cons head _ ih =>
    rcases List.mem_cons.mp member with rfl | later
    · exact ⟨_, List.mem_cons_self, head⟩
    · obtain ⟨y, inYs, holds⟩ := ih later
      exact ⟨y, List.mem_cons_of_mem _ inYs, holds⟩

theorem forall₂_exists_of_mem_right {xs : List α} {ys : List β} (related : List.Forall₂ R xs ys)
    {y : β} (member : y ∈ ys) : ∃ x ∈ xs, R x y :=
  forall₂_exists_of_mem_left related.flip member

theorem forall₂_getElem?_left {xs : List α} {ys : List β} (related : List.Forall₂ R xs ys) {n : Nat}
    {x : α} (found : xs[n]? = some x) : ∃ y, ys[n]? = some y ∧ R x y := by
  induction related generalizing n with
  | nil => cases found
  | cons head _ ih =>
    cases n with
    | zero =>
      cases found
      exact ⟨_, rfl, head⟩
    | succ n => exact ih found

/-- An `Option`-valued fold commutes with a map of its accumulators that commutes with each step:
the fold over the images is the image of the fold. -/
theorem foldlM_map_acc {γ δ : Type} {f : γ → α → Option γ} {g : δ → α → Option δ} (φ : δ → γ) :
    ∀ {xs : List α}, (∀ a, ∀ x ∈ xs, f (φ a) x = (g a x).map φ) →
      ∀ a, xs.foldlM f (φ a) = (xs.foldlM g a).map φ
  | [], _, _ => rfl
  | x :: xs, commutes, a => by
    rw [List.foldlM_cons, List.foldlM_cons, commutes a x List.mem_cons_self]
    cases g a x with
    | none => rfl
    | some b =>
      exact foldlM_map_acc φ (fun a y member => commutes a y (List.mem_cons_of_mem x member)) b

/-- An `Option`-valued fold whose every step succeeds and keeps an invariant succeeds, and ends in a
state with the invariant. -/
theorem foldlM_invariant {γ : Type} {f : γ → α → Option γ} (P : γ → Prop) :
    ∀ {xs : List α}, (∀ a, ∀ x ∈ xs, P a → ∃ b, f a x = some b ∧ P b) →
      ∀ a, P a → ∃ b, xs.foldlM f a = some b ∧ P b
  | [], _, a, holds => ⟨a, rfl, holds⟩
  | x :: xs, step, a, holds => by
    obtain ⟨b, stepped, kept⟩ := step a x List.mem_cons_self holds
    rw [List.foldlM_cons, stepped]
    exact foldlM_invariant P (fun a y member => step a y (List.mem_cons_of_mem x member)) b kept

/-- Folds whose steps agree on the elements of the list agree. -/
theorem foldlM_congr_of_mem {γ : Type} {f g : γ → α → Option γ} {xs : List α}
    (same : ∀ a, ∀ x ∈ xs, f a x = g a x) (a : γ) : xs.foldlM f a = xs.foldlM g a := by
  simpa using foldlM_map_acc id (fun a x member => by simpa using same a x member) a

/-- A fold over the pieces of a `flatMap` is a fold over the list of folds over each piece. -/
theorem foldlM_flatMap {γ : Type} (f : γ → β → Option γ) (pieces : α → List β) :
    ∀ (xs : List α) (a : γ),
      (xs.flatMap pieces).foldlM f a = xs.foldlM (fun a x => (pieces x).foldlM f a) a
  | [], _ => rfl
  | x :: xs, a => by
    rw [List.flatMap_cons, List.foldlM_append, List.foldlM_cons]
    cases (pieces x).foldlM f a with
    | none => rfl
    | some b => exact foldlM_flatMap f pieces xs b

end MapM

/-! ### Lists over `0..n` with one marked index -/

/-- A `filter_map` over `0..n` that finds a value at one index only. -/
theorem filterMap_range_eq_singleton {n a : Nat} {b : β} (small : a < n) (f : Nat → Option β)
    (only : ∀ k < n, f k = if k = a then some b else none) :
    (List.range n).filterMap f = [b] := by
  induction n with
  | zero => omega
  | succ n ih =>
    rw [List.range_succ, List.filterMap_append]
    by_cases last : a = n
    · subst last
      have noneBelow : (List.range a).filterMap f = [] := by
        rw [List.filterMap_eq_nil_iff]
        intro k member
        rw [only k (by simp at member; omega), if_neg (by simp at member; omega)]
      simp [noneBelow, only a (by omega)]
    · rw [ih (by omega) (fun k hk => only k (by omega))]
      simp [only n (by omega), Ne.symm last]

/-- Counting one index of `0..n`. -/
theorem sum_range_ite_eq_one {n a : Nat} (small : a < n) :
    ((List.range n).map fun i => if i = a then 0 + 1 else 0).sum = 1 := by
  induction n with
  | zero => omega
  | succ n ih =>
    rw [List.range_succ, List.map_append, List.sum_append]
    by_cases last : a = n
    · subst last
      have zeroBelow : ((List.range a).map fun i => if i = a then 0 + 1 else 0).sum = 0 := by
        have vanish : ∀ i ∈ List.range a, (if i = a then 0 + 1 else 0) = 0 := by
          intro i member
          simp [Nat.ne_of_lt (List.mem_range.mp member)]
        rw [List.map_congr_left vanish]
        simp
      simp [zeroBelow]
    · rw [ih (by omega)]
      simp [Ne.symm last]

theorem zipIdx_map_range (f : Nat → β) (n : Nat) :
    ((List.range n).map f).zipIdx = (List.range n).map fun i => (f i, i) := by
  apply List.ext_getElem (by simp)
  intro i _ _
  simp

/-- Reading every index of a list gives the list. -/
theorem map_getD_range (xs : List α) (default : α) :
    (List.range xs.length).map (fun i => xs.getD i default) = xs := by
  apply List.ext_getElem (by simp)
  intro i _ inside
  rw [List.getElem_map, List.getElem_range, List.getD_eq_getElem?_getD,
    List.getElem?_eq_getElem inside, Option.getD_some]

/-! ### Maps injective on the elements of a list -/

section InjOn

variable [DecidableEq α] [DecidableEq β]

/-- A map injective on the list keeps the number of distinct elements. -/
theorem length_dedup_map_of_injOn {f : α → β} :
    ∀ {xs : List α}, (∀ x ∈ xs, ∀ y ∈ xs, f x = f y → x = y) →
      (xs.map f).dedup.length = xs.dedup.length
  | [], _ => rfl
  | x :: xs, injective => by
    have rest : ∀ a ∈ xs, ∀ b ∈ xs, f a = f b → a = b := fun a inA b inB same =>
      injective a (mem_cons_of_mem x inA) b (mem_cons_of_mem x inB) same
    by_cases seen : x ∈ xs
    · rw [map_cons, dedup_cons_of_mem (mem_map_of_mem seen), dedup_cons_of_mem seen,
        length_dedup_map_of_injOn rest]
    · -- an element new to the list stays new in the image
      have unseen : f x ∉ xs.map f := by
        intro mapped
        obtain ⟨y, member, same⟩ := mem_map.mp mapped
        have equal := injective y (mem_cons_of_mem x member) x mem_cons_self same
        exact seen (equal ▸ member)
      rw [map_cons, dedup_cons_of_notMem unseen, dedup_cons_of_notMem seen, length_cons,
        length_cons, length_dedup_map_of_injOn rest]

end InjOn

/-- Under a map injective on the list and the point, the image of the point occurs as often as
the point. -/
theorem count_map_of_injOn [BEq α] [LawfulBEq α] [BEq β] [LawfulBEq β] {f : α → β}
    {xs : List α} {x : α} (injective : ∀ y ∈ xs, f y = f x → y = x) :
    (xs.map f).count (f x) = xs.count x := by
  rw [count_eq_countP, count_eq_countP, countP_map]
  apply countP_congr
  intro y member
  simp only [Function.comp_apply, beq_iff_eq]
  exact ⟨injective y member, congrArg f⟩

/-! ### Lists changed at one place, and lists seen through two maps -/

/-- A change at one place that a map does not see leaves the mapped list as it was. -/
theorem map_modify_of_forall {f : α → α} {g : α → β} (same : ∀ x, g (f x) = g x) :
    ∀ (l : List α) (i : Nat), (l.modify i f).map g = l.map g
  | [], _ => by rw [modify_nil]
  | x :: l, 0 => by rw [modify_zero_cons, map_cons, map_cons, same]
  | x :: l, i + 1 => by rw [modify_succ_cons, map_cons, map_cons, map_modify_of_forall same l i]

/-- Two lists that two maps, which together tell elements apart, both send to the same list are
equal. -/
theorem eq_of_map_eq_of_map_eq {γ : Type} {f : α → β} {g : α → γ}
    (joint : ∀ a b, f a = f b → g a = g b → a = b) :
    ∀ {l l' : List α}, l.map f = l'.map f → l.map g = l'.map g → l = l'
  | [], [], _, _ => rfl
  | [], _ :: _, sameF, _ => by simp at sameF
  | _ :: _, [], sameF, _ => by simp at sameF
  | a :: l, b :: l', sameF, sameG => by
    simp only [map_cons, cons.injEq] at sameF sameG
    rw [joint a b sameF.1 sameG.1, eq_of_map_eq_of_map_eq joint sameF.2 sameG.2]

/-! ### Lists ordered by a key -/

section Sorted

variable {κ : Type} [Preorder κ] {key : α → κ}

/-- In a list strictly ordered by a key, the last element is the one with the greatest key. -/
theorem getLast?_eq_some_iff_of_pairwise {l : List α} (sorted : l.Pairwise fun a b => key a < key b)
    {x : α} : l.getLast? = some x ↔ x ∈ l ∧ ∀ y ∈ l, key y ≤ key x := by
  constructor
  · intro last
    obtain ⟨front, rfl⟩ := getLast?_eq_some_iff.mp last
    refine ⟨mem_append_right _ (mem_singleton_self x), ?_⟩
    intro y member
    rcases mem_append.mp member with early | final
    · exact le_of_lt ((pairwise_append.mp sorted).2.2 y early x (mem_singleton_self x))
    · rw [mem_singleton.mp final]
  · rintro ⟨member, greatest⟩
    obtain ⟨z, last⟩ := Option.ne_none_iff_exists'.mp (getLast?_eq_none_iff.not.mpr (ne_nil_of_mem member))
    obtain ⟨front, rfl⟩ := getLast?_eq_some_iff.mp last
    rcases mem_append.mp member with early | final
    · -- an earlier element has a smaller key than the last one
      have below := (pairwise_append.mp sorted).2.2 x early z (mem_singleton_self z)
      exact absurd (greatest z (mem_append_right _ (mem_singleton_self z))) (not_le_of_gt below)
    · rw [last, mem_singleton.mp final]

end Sorted

end List

/-- A bind whose first step succeeds and whose continuation gives `r` on every value gives `r`. -/
theorem Option.bind_eq_some_of_isSome {α β : Type} {x : Option α} {k : α → Option β} {r : β}
    (succeeds : x.isSome) (rest : ∀ a, k a = some r) : (x >>= k) = some r := by
  obtain ⟨a, found⟩ := Option.isSome_iff_exists.mp succeeds
  rw [found]
  exact rest a
