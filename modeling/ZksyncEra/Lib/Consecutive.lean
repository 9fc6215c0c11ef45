import Mathlib

/-!
Lists whose keys are consecutive numbers, `l.map key = range' x m`, and the windows of a list
sorted by a key. A window, the elements whose key lies in an interval, is a contiguous part of the
list, so it keeps the keys consecutive; on consecutive keys, skipping or taking the elements below
a bound is dropping or taking a number of them.
-/

namespace List

variable {α : Type}

/-! ### Windows of a sorted list -/

section Windows

variable (key : α → Nat)

/-- On a list sorted by a key, the elements up to a bound are a prefix. -/
theorem filter_le_eq_takeWhile {l : List α} (sorted : l.Pairwise fun a b => key a ≤ key b)
    (hi : Nat) : l.filter (fun e => decide (key e ≤ hi)) = l.takeWhile (fun e => decide (key e ≤ hi)) := by
  induction l with
  | nil => rfl
  | cons a rest ih =>
    obtain ⟨later, sortedRest⟩ := pairwise_cons.mp sorted
    by_cases inside : key a ≤ hi
    · simp [inside, ih sortedRest]
    · -- every later key is at least `key a`, so beyond the bound as well
      rw [filter_cons_of_neg (by simpa using inside), takeWhile_cons_of_neg (by simpa using inside),
        filter_eq_nil_iff]
      intro e member
      have := later e member
      simp only [decide_eq_true_eq]
      omega

/-- On a list sorted by a key, the elements whose key lies in an interval are a contiguous part of
the list. -/
theorem filter_interval_infix {l : List α} (sorted : l.Pairwise fun a b => key a ≤ key b)
    (lo hi : Nat) : l.filter (fun e => decide (lo ≤ key e ∧ key e ≤ hi)) <:+: l := by
  induction l with
  | nil => exact infix_refl _
  | cons a rest ih =>
    obtain ⟨later, sortedRest⟩ := pairwise_cons.mp sorted
    by_cases inside : lo ≤ key a ∧ key a ≤ hi
    · -- past `a`, the lower bound holds throughout and the window is the prefix up to `hi`
      have upper : rest.filter (fun e => decide (lo ≤ key e ∧ key e ≤ hi)) =
          rest.filter (fun e => decide (key e ≤ hi)) :=
        filter_congr fun e member => by
          have := later e member
          simp only [decide_eq_decide]
          omega
      have window : (a :: rest).filter (fun e => decide (lo ≤ key e ∧ key e ≤ hi)) =
          (a :: rest).takeWhile (fun e => decide (key e ≤ hi)) := by
        rw [filter_cons_of_pos (by simpa using inside), upper,
          filter_le_eq_takeWhile key sortedRest, takeWhile_cons_of_pos (by simpa using inside.2)]
      have front : (a :: rest).takeWhile (fun e => decide (key e ≤ hi)) <+: a :: rest :=
        takeWhile_prefix _
      rw [window]
      exact front.isInfix
    · rw [filter_cons_of_neg (by simpa using inside)]
      exact (ih sortedRest).trans (suffix_cons a rest).isInfix

end Windows

/-! ### Consecutive keys -/

section Consecutive

variable {f : α → Nat} {x m : Nat}

/-- A contiguous part of a list with consecutive keys has consecutive keys. -/
theorem map_eq_range'_of_infix {window l : List α} {s n : Nat} (part : window <:+: l)
    (consecutive : l.map f = range' s n) : ∃ x, s ≤ x ∧ window.map f = range' x window.length := by
  obtain ⟨before, after, rfl⟩ := part
  rw [map_append, map_append] at consecutive
  obtain ⟨k, -, front, -⟩ := range'_eq_append_iff.mp consecutive.symm
  obtain ⟨j, -, -, middle⟩ := range'_eq_append_iff.mp front.symm
  have length : k - j = window.length := by simpa using congrArg List.length middle.symm
  exact ⟨s + j, by omega, by rw [middle, length, Nat.mul_one]⟩

/-- The element at an index of a list with consecutive keys, and its key. -/
theorem getElem?_of_map_eq_range' {l : List α} (consecutive : l.map f = range' x m) {i : Nat}
    (index : i < m) : ∃ e, l[i]? = some e ∧ f e = x + i := by
  have keyAt : (l.map f)[i]? = some (x + i) := by
    rw [consecutive, getElem?_range' index, Nat.one_mul]
  rw [getElem?_map] at keyAt
  obtain ⟨e, found, same⟩ := Option.map_eq_some_iff.mp keyAt
  exact ⟨e, found, same⟩

theorem length_of_map_eq_range' {l : List α} (consecutive : l.map f = range' x m) :
    l.length = m := by
  simpa using congrArg List.length consecutive

/-- Skipping the elements with a key below `n ≥ x` drops the first `n - x` of them. -/
theorem dropWhile_lt_of_map_eq_range' {l : List α} (consecutive : l.map f = range' x m) {n : Nat}
    (from_x : x ≤ n) : l.dropWhile (fun e => decide (f e < n)) = l.drop (n - x) := by
  induction l generalizing x m with
  | nil => simp
  | cons a rest ih =>
    cases m with
    | zero => simp at consecutive
    | succ m =>
      rw [map_cons, range'_succ, cons.injEq] at consecutive
      obtain ⟨first, consecutiveRest⟩ := consecutive
      by_cases below : x < n
      · rw [dropWhile_cons_of_pos (by simpa [first] using below),
          ih consecutiveRest (by omega)]
        rw [show n - x = n - (x + 1) + 1 by omega, drop_succ_cons]
      · have same : n - x = 0 := by omega
        rw [dropWhile_cons_of_neg (by simpa [first] using below), same, drop_zero]

/-- Taking the elements with a key below `bound` takes the first `bound - x` of them. -/
theorem takeWhile_gt_of_map_eq_range' {l : List α} (consecutive : l.map f = range' x m)
    (bound : Nat) : l.takeWhile (fun e => decide (bound > f e)) = l.take (bound - x) := by
  induction l generalizing x m with
  | nil => simp
  | cons a rest ih =>
    cases m with
    | zero => simp at consecutive
    | succ m =>
      rw [map_cons, range'_succ, cons.injEq] at consecutive
      obtain ⟨first, consecutiveRest⟩ := consecutive
      by_cases below : x < bound
      · rw [takeWhile_cons_of_pos (by simpa [first] using below), ih consecutiveRest]
        rw [show bound - x = bound - (x + 1) + 1 by omega, take_succ_cons]
      · have none : bound - x = 0 := by omega
        rw [takeWhile_cons_of_neg (by simpa [first] using below), none, take_zero]

/-- Dropping and taking keep the keys consecutive. -/
theorem map_take_drop_of_map_eq_range' {l : List α} (consecutive : l.map f = range' x m)
    (j k : Nat) : ((l.drop j).take k).map f = range' (x + j) (min k (m - j)) := by
  rw [map_take, map_drop, consecutive, drop_range', Nat.mul_one]
  rcases Nat.le_total k (m - j) with le | ge
  · rw [take_range'_of_length_ge le, Nat.min_eq_left le]
  · rw [take_range'_of_length_le ge, Nat.min_eq_right ge]

end Consecutive

end List
