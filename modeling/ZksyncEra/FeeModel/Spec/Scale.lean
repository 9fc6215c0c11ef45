import ZksyncEra.FeeModel.FeeParams

/-!
What `FeeParams::scale` returns. The clipped V2 prices never exceed the bootloader's maxima, and
prices that are a short significand times a power of two survive scaling by `1.0` unchanged.

The computation does not always return. The overhead a batch costs, spread over
`max_pubdata_per_batch` bytes, goes through `U256::as_u64` before the pubdata overhead part scales
it, and for an L1 gas price above `u64::MAX · max_pubdata_per_batch / batch_overhead_l1_gas` that
call panics. With the source's own sensible configuration (`700_000` L1 gas of overhead over
`100_000` bytes) that is any L1 gas price above `u64::MAX / 7`, about `2.6 · 10^18` wei.
-/

namespace ZksyncEra.FeeModel

open Binary64

/-- Scaling by `1.0` keeps a price that is a significand below `2^53` times a power of two. -/
theorem scalePrice_one (price : UInt64) (m k : Nat) (significand : m < 2 ^ precision)
    (exact : price.toNat = m * 2 ^ k) : scalePrice price one = price := by
  -- a nonzero price below `2^64` has its exponent below `64`, far inside the format's range
  have fits : m * 2 ^ (k + unitExponent) ≤ maxUnits := by
    rcases Nat.eq_zero_or_pos m with rfl | positive
    · simp
    · have below : 2 ^ k < 2 ^ 64 := by
        calc 2 ^ k ≤ m * 2 ^ k := Nat.le_mul_of_pos_left _ positive
          _ = price.toNat := exact.symm
          _ < 2 ^ 64 := price.toNat_lt
      exact le_maxUnits m k significand
        (by have := (Nat.pow_lt_pow_iff_right (by decide : 1 < 2)).mp below; omega)
  have converted := ofNat_mul_pow m k significand fits
  rw [← exact] at converted
  have whole : m * 2 ^ (k + unitExponent) = price.toNat * 2 ^ unitExponent := by
    rw [Nat.pow_add, ← Nat.mul_assoc, ← exact]
  rw [scalePrice, converted, mul_one, toUInt64_finite _ _ _ whole price.toNat_lt,
    UInt64.ofNat_toNat]

/-- When the batch overhead per pubdata byte is beyond `u64::MAX`, `as_u64` panics. -/
theorem ceilDivU256_bind_asU64_of_overflow (a b : Nat) (overflow : U64_MAX * b < a) :
    (ceilDivU256 a b).bind asU64 = none := by
  by_cases zero : b = 0
  · simp [ceilDivU256, zero]
  · have beyond : U64_MAX + 1 ≤ (a + b - 1) / b := by
      rw [Nat.le_div_iff_mul_le (Nat.pos_of_ne_zero zero)]
      have : (U64_MAX + 1) * b = U64_MAX * b + b := Nat.succ_mul _ _
      omega
    simp [ceilDivU256, zero, asU64, Nat.not_le.mpr beyond]

/-- The V2 computation panics once the L1 batch overhead exceeds `u64::MAX` per pubdata byte. -/
theorem computeBatchFeeModelInputV2_of_overhead_overflow (params : FeeParamsV2)
    (l1GasPriceScaleFactor l1PubdataPriceScaleFactor : Binary64)
    (overflow : U64_MAX * params.config.maxPubdataPerBatch.toNat <
      (scalePrice params.l1GasPrice l1GasPriceScaleFactor).toNat *
        params.config.batchOverheadL1Gas.toNat) :
    computeBatchFeeModelInputV2 params l1GasPriceScaleFactor l1PubdataPriceScaleFactor = none := by
  have panics := ceilDivU256_bind_asU64_of_overflow _ _ overflow
  cases perPubdata : ceilDivU256 ((scalePrice params.l1GasPrice l1GasPriceScaleFactor).toNat *
      params.config.batchOverheadL1Gas.toNat) params.config.maxPubdataPerBatch.toNat with
  | none => simp [computeBatchFeeModelInputV2, perPubdata]
  | some value =>
    rw [perPubdata, Option.bind_some] at panics
    simp [computeBatchFeeModelInputV2, perPubdata, panics]

/-- The clipped prices are within the bootloader's maxima. -/
theorem clipBatchFeeModelInputV2_le (feeModel : PubdataIndependentBatchFeeModelInput) :
    (clipBatchFeeModelInputV2 feeModel).fairL2GasPrice ≤ MAXIMUM_L2_GAS_PRICE ∧
      (clipBatchFeeModelInputV2 feeModel).fairPubdataPrice ≤ MAXIMUM_PUBDATA_PRICE := by
  constructor
  · by_cases below : feeModel.fairL2GasPrice < MAXIMUM_L2_GAS_PRICE
    · simp only [clipBatchFeeModelInputV2, below, if_true]
      exact UInt64.le_of_lt below
    · simp only [clipBatchFeeModelInputV2, below, if_false]
      exact UInt64.le_refl _
  · by_cases below : feeModel.fairPubdataPrice < MAXIMUM_PUBDATA_PRICE
    · simp only [clipBatchFeeModelInputV2, below, if_true]
      exact UInt64.le_of_lt below
    · simp only [clipBatchFeeModelInputV2, below, if_false]
      exact UInt64.le_refl _

/-- Every V2 fee input that `scale` returns is pubdata independent and within the maxima. -/
theorem scale_v2_le (params : FeeParamsV2)
    (l1GasPriceScaleFactor l1PubdataPriceScaleFactor : Binary64) (input : BatchFeeInput)
    (returned : (FeeParams.v2 params).scale l1GasPriceScaleFactor l1PubdataPriceScaleFactor =
      some input) :
    ∃ prices, input = .pubdataIndependent prices ∧
      prices.fairL2GasPrice ≤ MAXIMUM_L2_GAS_PRICE ∧
      prices.fairPubdataPrice ≤ MAXIMUM_PUBDATA_PRICE := by
  simp only [FeeParams.scale, Option.map_eq_some_iff] at returned
  obtain ⟨computed, -, rfl⟩ := returned
  exact ⟨_, rfl, clipBatchFeeModelInputV2_le computed⟩

/-- With the source's sensible configuration that closes batches by pubdata only (a `700_000` L1 gas
overhead, `100_000` pubdata bytes per batch), L1 prices of `2^62` wei, no conversion and scale
factors `1.0`, the overhead per pubdata byte is `7 · 2^62 > u64::MAX` and `scale` panics. -/
theorem scale_panics_on_pubdata_overhead :
    (FeeParams.v2 (FeeParamsV2.new ⟨100000000000, zero, one, 700000, 500000000, 100000⟩
      (UInt64.ofNat (2 ^ 62)) (UInt64.ofNat (2 ^ 62)) default)).scale one one = none := by
  have price : (FeeParamsV2.new ⟨100000000000, zero, one, 700000, 500000000, 100000⟩
      (UInt64.ofNat (2 ^ 62)) (UInt64.ofNat (2 ^ 62)) default).l1GasPrice =
      UInt64.ofNat (2 ^ 62) := by decide
  have scaled : scalePrice (UInt64.ofNat (2 ^ 62)) one = UInt64.ofNat (2 ^ 62) :=
    scalePrice_one _ 1 62 (by decide) (by decide)
  have overflow := computeBatchFeeModelInputV2_of_overhead_overflow
    (FeeParamsV2.new ⟨100000000000, zero, one, 700000, 500000000, 100000⟩
      (UInt64.ofNat (2 ^ 62)) (UInt64.ofNat (2 ^ 62)) default) one one
    (by rw [price, scaled]; decide)
  simp only [FeeParams.scale, overflow, Option.map_none]

end ZksyncEra.FeeModel
