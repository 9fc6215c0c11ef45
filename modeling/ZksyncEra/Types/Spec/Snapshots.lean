import ZksyncEra.Types.Snapshots
import ZksyncEra.Lib.UniformChunks

/-!
The chunks of the hashed-key space that `uniform_hashed_keys_chunk` returns are an exact
partition of it.

The code computes the uniform cut of the `2 ^ 256` hashed keys into `chunkCount` chunks
(`UniformChunks`), whose stride is `2 ^ 256` divided by the count and rounded up
(`uniformHashedKeysChunk_eq`). For more than one chunk that stride is `U256::MAX / chunkCount + 1`
and fits in a word; with fewer than `2 ^ 64` chunks the product `stride * chunkId` stays below
`2 ^ 256` as well, which is the cut's `start_lt_total`. For one chunk the stride is `2 ^ 256`,
which no word holds; the code keeps `U256::MAX` in its place, and the one chunk is still the whole
space. The partition facts are then the library's, read back through the refinement.
-/

namespace ZksyncEra.Snapshots

open UniformChunks

/-- The size of a chunk `start..=end` as the source's test measures it, `end - start + 1`. -/
def chunkSize (range : BitVec 256 × BitVec 256) : Nat := range.2.toNat - range.1.toNat + 1

/-- Chunk `chunkId` of the uniform cut of the `2 ^ 256` hashed keys into `chunkCount` chunks, as
the inclusive range of words the code returns. -/
def cutChunk (chunkCount chunkId : UInt64) : BitVec 256 × BitVec 256 :=
  (BitVec.ofNat 256 (start (2 ^ 256) chunkCount.toNat chunkId.toNat),
    BitVec.ofNat 256 (stop (2 ^ 256) chunkCount.toNat chunkId.toNat - 1))

theorem toNat_U256_MAX : U256_MAX.toNat = 2 ^ 256 - 1 := BitVec.toNat_allOnes

/-- Fewer than `2 ^ 64` chunks of the `2 ^ 256` keys leave no chunk empty. -/
theorem toNat_mul_self_le (chunkCount : UInt64) :
    chunkCount.toNat * chunkCount.toNat ≤ 2 ^ 256 := by
  have below := chunkCount.toNat_lt
  calc chunkCount.toNat * chunkCount.toNat ≤ 2 ^ 64 * 2 ^ 64 := Nat.mul_le_mul below.le below.le
    _ ≤ 2 ^ 256 := by rw [← Nat.pow_add]; exact Nat.pow_le_pow_right (by decide) (by decide)

theorem toNat_quotient (chunkCount : UInt64) :
    (U256_MAX / BitVec.ofNat 256 chunkCount.toNat).toNat = (2 ^ 256 - 1) / chunkCount.toNat := by
  have below := chunkCount.toNat_lt
  rw [BitVec.toNat_udiv, toNat_U256_MAX, BitVec.toNat_ofNat, Nat.mod_eq_of_lt (by omega)]

/-- The end of a chunk, `stride_minus_one + start` with `U256::MAX` in place of a wrapped sum,
is the exact sum saturated at `U256::MAX`. -/
theorem toNat_end (strideMinusOne start : BitVec 256) :
    (if (Checked.overflowingAdd strideMinusOne start).2 then U256_MAX
      else (Checked.overflowingAdd strideMinusOne start).1).toNat + 1 =
      min (strideMinusOne.toNat + start.toNat + 1) (2 ^ 256) := by
  rw [U256_MAX, Checked.toNat_overflowingAdd_clamp]
  omega

theorem eq_cutChunk {chunkId chunkCount : UInt64} {first last : BitVec 256}
    (start_eq : first.toNat = start (2 ^ 256) chunkCount.toNat chunkId.toNat)
    (stop_eq : last.toNat + 1 = stop (2 ^ 256) chunkCount.toNat chunkId.toNat) :
    (first, last) = cutChunk chunkCount chunkId := by
  rw [cutChunk, ← start_eq, ← stop_eq, Nat.add_sub_cancel, BitVec.ofNat_toNat,
    BitVec.ofNat_toNat, BitVec.setWidth_eq, BitVec.setWidth_eq]

/-- The code computes the uniform cut: it never panics for `chunkId < chunkCount`, and returns
that chunk of the cut. -/
theorem uniformHashedKeysChunk_eq {chunkId chunkCount : UInt64} (inside : chunkId < chunkCount) :
    uniformHashedKeysChunk chunkId chunkCount = some (cutChunk chunkCount chunkId) := by
  have idLt : chunkId.toNat < chunkCount.toNat := UInt64.lt_iff_toNat_lt.mp inside
  have positive : 0 < chunkCount := UInt64.lt_iff_toNat_lt.mpr (by simp; omega)
  have idNat : (BitVec.ofNat 256 chunkId.toNat).toNat = chunkId.toNat := by
    have below := chunkId.toNat_lt
    rw [BitVec.toNat_ofNat, Nat.mod_eq_of_lt (by omega)]
  have quotient := toNat_quotient chunkCount
  simp only [uniformHashedKeysChunk, gt_iff_lt, positive, inside, not_true_eq_false, if_false]
  generalize U256_MAX / BitVec.ofNat 256 chunkCount.toNat = q at quotient ⊢
  by_cases several : 1 < chunkCount.toNat
  · -- the stride `q + 1` fits in a word, and so does `stride * chunkId`
    have qLt : q.toNat < 2 ^ 256 - 1 := by
      rw [quotient]
      exact Nat.div_lt_self (by decide) several
    have strideEq : stride (2 ^ 256) chunkCount.toNat = q.toNat + 1 := by
      rw [stride_eq (by decide) (by omega), quotient]
    have plusOne : (q + 1).toNat = q.toNat + 1 := BitVec.toNat_add_of_lt (by simp; omega)
    have fits : (q + 1).toNat * (BitVec.ofNat 256 chunkId.toNat).toNat < 2 ^ 256 := by
      have startLt := start_lt_total (by omega) (toNat_mul_self_le chunkCount) idLt
      rwa [start, strideEq, ← plusOne, ← idNat] at startLt
    rw [if_pos (BitVec.lt_def.mpr (by rw [toNat_U256_MAX]; exact qLt)),
      Checked.add_eq_some (by simp; omega)]
    simp only [Option.bind_eq_bind, Option.bind_some]
    rw [Checked.sub_eq_some (by rw [plusOne]; simp)]
    simp only [Option.bind_some, Option.pure_def, BitVec.add_sub_cancel]
    rw [Checked.mul_eq_some fits]
    simp only [Option.bind_some]
    congr 1
    apply eq_cutChunk
    · rw [BitVec.toNat_mul_of_lt fits, plusOne, idNat, start, strideEq]
    · rw [toNat_end, BitVec.toNat_mul_of_lt fits, plusOne, idNat, stop, start, strideEq,
        Nat.mul_succ]
      omega
  · -- one chunk: its stride `2 ^ 256` does not fit, and `U256::MAX` stands in for it
    have single : chunkCount.toNat = 1 := by omega
    have first : chunkId.toNat = 0 := by omega
    have whole : q.toNat = 2 ^ 256 - 1 := by rw [quotient, single, Nat.div_one]
    have fits : q.toNat * (BitVec.ofNat 256 chunkId.toNat).toNat < 2 ^ 256 := by
      rw [idNat, first, Nat.mul_zero]
      decide
    rw [if_neg (by rw [BitVec.lt_def, whole, toNat_U256_MAX]; exact Nat.lt_irrefl _)]
    simp only [Option.pure_def, Option.bind_eq_bind, Option.bind_some]
    rw [Checked.mul_eq_some fits]
    simp only [Option.bind_some]
    have last : stop (2 ^ 256) 1 (1 - 1) = 2 ^ 256 := stop_pred_eq_total Nat.zero_lt_one
    congr 1
    apply eq_cutChunk
    · rw [BitVec.toNat_mul_of_lt fits, idNat, first, Nat.mul_zero, start_zero]
    · rw [toNat_end, BitVec.toNat_mul_of_lt fits, idNat, first, single, last, whole]
      omega

/-! ### The cut, read as words -/

section Cut

variable {chunkCount chunkId : UInt64}

theorem toNat_cutChunk_fst (inside : chunkId.toNat < chunkCount.toNat) :
    (cutChunk chunkCount chunkId).1.toNat = start (2 ^ 256) chunkCount.toNat chunkId.toNat := by
  have below := start_lt_total (by omega) (toNat_mul_self_le chunkCount) inside
  rw [cutChunk, BitVec.toNat_ofNat, Nat.mod_eq_of_lt below]

theorem toNat_cutChunk_snd (inside : chunkId.toNat < chunkCount.toNat) :
    (cutChunk chunkCount chunkId).2.toNat + 1 = stop (2 ^ 256) chunkCount.toNat chunkId.toNat := by
  have nonempty := start_lt_stop (by omega) (toNat_mul_self_le chunkCount) inside
  have atMost : stop (2 ^ 256) chunkCount.toNat chunkId.toNat ≤ 2 ^ 256 := Nat.min_le_right _ _
  rw [cutChunk, BitVec.toNat_ofNat, Nat.mod_eq_of_lt (by omega)]
  omega

theorem chunkSize_cutChunk (inside : chunkId.toNat < chunkCount.toNat) :
    chunkSize (cutChunk chunkCount chunkId) =
      stop (2 ^ 256) chunkCount.toNat chunkId.toNat -
        start (2 ^ 256) chunkCount.toNat chunkId.toNat := by
  have nonempty := start_lt_stop (by omega) (toNat_mul_self_le chunkCount) inside
  have first := toNat_cutChunk_fst inside
  have last := toNat_cutChunk_snd inside
  rw [chunkSize]
  omega

/-- A key lies in chunk `chunkId` of the words exactly where it lies in that chunk of the cut. -/
theorem mem_cutChunk_iff (inside : chunkId.toNat < chunkCount.toNat) (key : BitVec 256) :
    ((cutChunk chunkCount chunkId).1 ≤ key ∧ key ≤ (cutChunk chunkCount chunkId).2) ↔
      (start (2 ^ 256) chunkCount.toNat chunkId.toNat ≤ key.toNat ∧
        key.toNat < stop (2 ^ 256) chunkCount.toNat chunkId.toNat) := by
  have first := toNat_cutChunk_fst inside
  have last := toNat_cutChunk_snd inside
  rw [BitVec.le_def, BitVec.le_def, first]
  omega

end Cut

/-- `uniform_hashed_keys_chunk` cuts the hashed-key space into an exact partition: for every
count from one to `u64::MAX`, the function returns for each `chunkId < chunkCount` without
panicking, every chunk is nonempty, chunk `0` starts at zero and the last one ends at
`0xff..ff`, each chunk starts one after the end of the one before it, every key lies in exactly
one chunk, and all chunks but the last have one size, which the last one undershoots by less
than `chunkCount`. -/
theorem uniformHashedKeysChunk_partition (chunkCount : UInt64) (positive : 0 < chunkCount) :
    ∃ chunk : UInt64 → BitVec 256 × BitVec 256,
      (∀ chunkId, chunkId < chunkCount →
        uniformHashedKeysChunk chunkId chunkCount = some (chunk chunkId)) ∧
      (∀ chunkId, chunkId < chunkCount → (chunk chunkId).1 ≤ (chunk chunkId).2) ∧
      (chunk 0).1 = 0 ∧ (chunk (chunkCount - 1)).2 = BitVec.allOnes 256 ∧
      (∀ chunkId : UInt64, chunkId.toNat + 1 < chunkCount.toNat →
        (chunk (chunkId + 1)).1.toNat = (chunk chunkId).2.toNat + 1) ∧
      (∀ key : BitVec 256, ∃! chunkId, chunkId < chunkCount ∧
        (chunk chunkId).1 ≤ key ∧ key ≤ (chunk chunkId).2) ∧
      (∀ chunkId : UInt64, chunkId.toNat + 1 < chunkCount.toNat →
        chunkSize (chunk chunkId) = chunkSize (chunk 0)) ∧
      chunkSize (chunk (chunkCount - 1)) ≤ chunkSize (chunk 0) ∧
      chunkSize (chunk 0) - chunkSize (chunk (chunkCount - 1)) < chunkCount.toNat := by
  have count : 0 < chunkCount.toNat := UInt64.lt_iff_toNat_lt.mp positive
  have enough := toNat_mul_self_le chunkCount
  have zero : (0 : UInt64).toNat < chunkCount.toNat := count
  have lastId : (chunkCount - 1).toNat = chunkCount.toNat - 1 := by
    rw [UInt64.toNat_sub_of_le _ _ (UInt64.le_iff_toNat_le.mpr (by simp; omega)),
      UInt64.toNat_one]
  have lastLt : (chunkCount - 1).toNat < chunkCount.toNat := by omega
  have nextId {chunkId : UInt64} (next : chunkId.toNat + 1 < chunkCount.toNat) :
      (chunkId + 1).toNat = chunkId.toNat + 1 := by
    have := chunkCount.toNat_lt
    rw [UInt64.toNat_add, UInt64.toNat_one, Nat.mod_eq_of_lt (by omega)]
  refine ⟨cutChunk chunkCount, fun chunkId inside => uniformHashedKeysChunk_eq inside,
    ?nonempty, ?first, ?last, ?adjacent, ?cover, ?sizes, ?lastSize⟩
  case nonempty =>
    intro chunkId inside
    have inside := UInt64.lt_iff_toNat_lt.mp inside
    have first := toNat_cutChunk_fst inside
    have last := toNat_cutChunk_snd inside
    have nonempty := start_lt_stop count enough inside
    rw [BitVec.le_def]
    omega
  case first =>
    apply BitVec.eq_of_toNat_eq
    rw [toNat_cutChunk_fst zero, UInt64.toNat_zero, start_zero]
    rfl
  case last =>
    apply BitVec.eq_of_toNat_eq
    have ends := toNat_cutChunk_snd lastLt
    rw [lastId, stop_pred_eq_total count] at ends
    rw [BitVec.toNat_allOnes]
    omega
  case adjacent =>
    intro chunkId next
    rw [toNat_cutChunk_fst (by rw [nextId next]; exact next), toNat_cutChunk_snd (by omega),
      nextId next, start_succ_eq_stop count enough next]
  case cover =>
    intro key
    obtain ⟨index, ⟨inside, low, high⟩, unique⟩ := existsUnique_chunk count enough key.isLt
    have indexNat : (UInt64.ofNat index).toNat = index :=
      UInt64.toNat_ofNat_of_lt' (Nat.lt_trans inside chunkCount.toNat_lt)
    refine ⟨UInt64.ofNat index, ⟨UInt64.lt_iff_toNat_lt.mpr (by rw [indexNat]; exact inside),
      (mem_cutChunk_iff (by rw [indexNat]; exact inside) key).mpr (by rw [indexNat]; exact ⟨low, high⟩)⟩, ?_⟩
    rintro chunkId ⟨chunkInside, member⟩
    have chunkInside := UInt64.lt_iff_toNat_lt.mp chunkInside
    have same := unique chunkId.toNat ⟨chunkInside, (mem_cutChunk_iff chunkInside key).mp member⟩
    rw [← UInt64.toNat_inj, indexNat, same]
  case sizes =>
    intro chunkId next
    rw [chunkSize_cutChunk (by omega), chunkSize_cutChunk zero, stop_sub_start count enough next,
      UInt64.toNat_zero, stop_sub_start count enough (by omega)]
  case lastSize =>
    rw [chunkSize_cutChunk lastLt, chunkSize_cutChunk zero, lastId, UInt64.toNat_zero]
    have lastBounds := stop_sub_start_pred count enough
    rcases Nat.lt_or_ge 1 chunkCount.toNat with several | single
    · -- the first chunk is a whole stride
      rw [stop_sub_start count enough several]
      exact lastBounds
    · -- the one chunk is the first and the last
      have : chunkCount.toNat - 1 = 0 := by omega
      rw [this]
      omega

theorem uniformHashedKeysChunk_partition_three :
    (0 : UInt64) < 3 ∧
      ∃ chunk : UInt64 → BitVec 256 × BitVec 256,
        (∀ chunkId, chunkId < 3 → uniformHashedKeysChunk chunkId 3 = some (chunk chunkId)) ∧
        (∀ chunkId, chunkId < 3 → (chunk chunkId).1 ≤ (chunk chunkId).2) ∧
        (chunk 0).1 = 0 ∧ (chunk (3 - 1)).2 = BitVec.allOnes 256 ∧
        (∀ chunkId : UInt64, chunkId.toNat + 1 < (3 : UInt64).toNat →
          (chunk (chunkId + 1)).1.toNat = (chunk chunkId).2.toNat + 1) ∧
        (∀ key : BitVec 256, ∃! chunkId, chunkId < 3 ∧
          (chunk chunkId).1 ≤ key ∧ key ≤ (chunk chunkId).2) ∧
        (∀ chunkId : UInt64, chunkId.toNat + 1 < (3 : UInt64).toNat →
          chunkSize (chunk chunkId) = chunkSize (chunk 0)) ∧
        chunkSize (chunk (3 - 1)) ≤ chunkSize (chunk 0) ∧
        chunkSize (chunk 0) - chunkSize (chunk (3 - 1)) < (3 : UInt64).toNat :=
  ⟨by decide, uniformHashedKeysChunk_partition 3 (by decide)⟩

end ZksyncEra.Snapshots
