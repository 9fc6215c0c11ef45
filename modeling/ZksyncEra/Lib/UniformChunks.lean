import Mathlib

/-!
Cutting the interval `[0, total)` into `count` consecutive chunks at the multiples of one stride,
`total` divided by `count` and rounded up. Chunk `index` is `[start index, stop index)`, the last
one clipped at `total`.

When `count * count ≤ total` the cut is a partition: no chunk is empty, each chunk begins where
the one before it ends, the last one ends at `total`, and every point of the interval lies in
exactly one chunk. All chunks but the last have the stride as their size, and the last one is
shorter by less than `count`.

The whole argument rests on the two bounds of rounding up, `total ≤ stride * count <
total + count` (`le_stride_mul`, `stride_mul_lt`), and on the stride being at least `count`
(`count_le_stride`), which keeps the last chunk nonempty.
-/

namespace UniformChunks

/-- The common size of the chunks. -/
def stride (total count : Nat) : Nat := total ⌈/⌉ count

/-- The first point of chunk `index`. -/
def start (total count index : Nat) : Nat := stride total count * index

/-- The point after the last one of chunk `index`. -/
def stop (total count index : Nat) : Nat := min (start total count (index + 1)) total

@[simp] theorem start_zero (total count : Nat) : start total count 0 = 0 := by
  simp [start]

section Bounds

variable {total count : Nat}

theorem stride_eq (nonempty : 0 < total) (positive : 0 < count) :
    stride total count = (total - 1) / count + 1 := by
  rw [stride, Nat.ceilDiv_eq_add_pred_div, show total + count - 1 = total - 1 + count by omega,
    Nat.add_div_right _ positive]

theorem le_stride_mul (positive : 0 < count) : total ≤ stride total count * count := by
  rw [Nat.mul_comm]
  exact le_smul_ceilDiv positive

theorem stride_mul_lt (nonempty : 0 < total) (positive : 0 < count) :
    stride total count * count < total + count := by
  rw [stride_eq nonempty positive, Nat.add_mul, Nat.one_mul]
  have split := Nat.div_add_mod (total - 1) count
  have remainder := Nat.mod_lt (total - 1) positive
  rw [Nat.mul_comm]
  omega

/-- The last chunk ends at the end of the interval. -/
theorem stop_pred_eq_total (positive : 0 < count) : stop total count (count - 1) = total := by
  have covered : total ≤ stride total count * count := le_stride_mul positive
  rw [stop, start, Nat.sub_add_cancel positive]
  omega

section Enough

variable (positive : 0 < count) (enough : count * count ≤ total)
include positive enough

theorem total_pos : 0 < total :=
  Nat.lt_of_lt_of_le (Nat.mul_pos positive positive) enough

theorem count_le_stride : count ≤ stride total count := by
  have covered : total ≤ stride total count * count := le_stride_mul positive
  rw [Nat.mul_comm] at covered
  exact Nat.le_of_mul_le_mul_left (Nat.le_trans enough covered) positive

/-- The last chunk begins inside the interval. -/
theorem start_pred_lt : start total count (count - 1) < total := by
  have below := stride_mul_lt (total_pos positive enough) positive
  have large := count_le_stride positive enough
  have split : stride total count * (count - 1) + stride total count =
      stride total count * count := by
    rw [← Nat.mul_succ, Nat.succ_eq_add_one, Nat.sub_add_cancel positive]
  rw [start]
  omega

theorem start_lt_total {index : Nat} (inside : index < count) : start total count index < total :=
  Nat.lt_of_le_of_lt (Nat.mul_le_mul_left _ (by omega)) (start_pred_lt positive enough)

theorem start_succ_eq_stop {index : Nat} (next : index + 1 < count) :
    start total count (index + 1) = stop total count index := by
  have inside := start_lt_total positive enough next
  rw [stop]
  omega

theorem start_lt_stop {index : Nat} (inside : index < count) :
    start total count index < stop total count index := by
  have below := start_lt_total positive enough inside
  have grows : stride total count * index < stride total count * (index + 1) :=
    Nat.mul_lt_mul_of_pos_left (Nat.lt_succ_self index)
      (Nat.lt_of_lt_of_le positive (count_le_stride positive enough))
  rw [start] at below
  rw [stop, start, start]
  omega

/-- Every chunk but the last has the stride as its size. -/
theorem stop_sub_start {index : Nat} (next : index + 1 < count) :
    stop total count index - start total count index = stride total count := by
  rw [← start_succ_eq_stop positive enough next, start, start, Nat.mul_succ]
  omega

/-- The last chunk is at most a stride long, and shorter by less than `count`. -/
theorem stop_sub_start_pred :
    stop total count (count - 1) - start total count (count - 1) ≤ stride total count ∧
      stride total count - (stop total count (count - 1) - start total count (count - 1)) <
        count := by
  have covered : total ≤ stride total count * count := le_stride_mul positive
  have below := stride_mul_lt (total_pos positive enough) positive
  have inside := start_pred_lt positive enough
  have split : stride total count * (count - 1) + stride total count =
      stride total count * count := by
    rw [← Nat.mul_succ, Nat.succ_eq_add_one, Nat.sub_add_cancel positive]
  rw [stop_pred_eq_total positive]
  rw [start] at inside ⊢
  omega

/-- Every point of the interval lies in exactly one chunk, the one its quotient by the stride
names. -/
theorem existsUnique_chunk {x : Nat} (inside : x < total) :
    ∃! index, index < count ∧ start total count index ≤ x ∧ x < stop total count index := by
  have stridePos : 0 < stride total count :=
    Nat.lt_of_lt_of_le positive (count_le_stride positive enough)
  have covered : total ≤ stride total count * count := le_stride_mul positive
  rw [Nat.mul_comm] at covered
  refine ⟨x / stride total count, ⟨?_, ?_, ?_⟩, ?_⟩
  · exact (Nat.div_lt_iff_lt_mul stridePos).mpr (Nat.lt_of_lt_of_le inside covered)
  · rw [start, Nat.mul_comm]
    exact Nat.div_mul_le_self x _
  · rw [stop, start]
    exact Nat.lt_min.mpr ⟨Nat.lt_mul_div_succ x stridePos, inside⟩
  · rintro index ⟨-, low, high⟩
    rw [stop, start, Nat.lt_min] at high
    rw [start] at low
    exact (Nat.div_eq_of_lt_le (by rw [Nat.mul_comm]; exact low)
      (by rw [Nat.mul_comm]; exact high.1)).symm

end Enough

end Bounds

end UniformChunks
