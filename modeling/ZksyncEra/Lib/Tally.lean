import Mathlib

/-!
A sum over a finite set of keys, kept incrementally. When one key's summand changes, and the key
joins the set if it was not in it (where its old summand was zero), the sum changes by that
summand alone. The statement is additive, so that over `ℕ` it needs no subtraction.
-/

namespace Finset

variable {α M : Type} [DecidableEq α] [AddCommMonoid M]

theorem sum_insert_add_of_agree {s : Finset α} {f g : α → M} {i : α}
    (agree : ∀ x, x ≠ i → g x = f x) (absent : i ∉ s → f i = 0) :
    ∑ x ∈ insert i s, g x + f i = ∑ x ∈ s, f x + g i := by
  -- the summands other than `i` are the same on both sides
  have rest : ∑ x ∈ s.erase i, g x = ∑ x ∈ s.erase i, f x :=
    sum_congr rfl fun x mem => agree x (ne_of_mem_erase mem)
  by_cases mem : i ∈ s
  · rw [insert_eq_of_mem mem, ← sum_erase_add s g mem, ← sum_erase_add s f mem, rest,
      add_right_comm]
  · rw [sum_insert mem, absent mem, add_zero, ← erase_eq_of_notMem mem, rest, add_comm]

end Finset
