import ZksyncEra.Lib.Binary64

/-!
The fee models (`types/src/fee_model.rs`): the batch fee input computed from the fee parameters,
with the L1 prices scaled by `f64` factors.

`u64` values are `UInt64`, so `+` wraps as in a release build. The `u128` and `U256` intermediates
are natural numbers: each is a product of two `u64` values, which neither type can overflow. The
panics of `ceil_div_u256` on a zero divisor and of `U256::as_u64` above `u64::MAX` are `none`.
`f64` values are the non-negative `Binary64` values.
-/

namespace ZksyncEra.FeeModel

/-- `u64::MAX`. -/
def U64_MAX : Nat := 2 ^ 64 - 1

/-- `ceil_div_u256` (`basic_types`): `(a + b - 1) / b`, which panics for `b = 0`, on the
subtraction or on the division. -/
def ceilDivU256 (a b : Nat) : Option Nat :=
  if b = 0 then none else some ((a + b - 1) / b)

/-- `U256::as_u64`, which panics on a value above `u64::MAX`. -/
def asU64 (value : Nat) : Option UInt64 :=
  if value ≤ U64_MAX then some (UInt64.ofNat value) else none

theorem asU64_of_le {value : Nat} (fits : value ≤ U64_MAX) :
    asU64 value = some (UInt64.ofNat value) := by
  simp only [asU64, fits, if_true]

/-- `(price as f64 * factor) as u64`, the scaling each price of the fee model goes through. -/
def scalePrice (price : UInt64) (factor : Binary64) : UInt64 :=
  (Binary64.ofNat price.toNat * factor).toUInt64

/-- `FeeModelConfigV1`. -/
structure FeeModelConfigV1 where
  minimalL2GasPrice : UInt64

/-- `FeeModelConfigV2`. -/
structure FeeModelConfigV2 where
  minimalL2GasPrice : UInt64
  computeOverheadPart : Binary64
  pubdataOverheadPart : Binary64
  batchOverheadL1Gas : UInt64
  maxGasPerBatch : UInt64
  maxPubdataPerBatch : UInt64

/-- `BaseTokenConversionRatio`, of two `NonZeroU64`s. -/
structure BaseTokenConversionRatio where
  numerator : UInt64
  denominator : UInt64
  numerator_ne_zero : numerator ≠ 0
  denominator_ne_zero : denominator ≠ 0

instance : Inhabited BaseTokenConversionRatio := ⟨⟨1, 1, by decide, by decide⟩⟩

/-- `FeeParamsV1`. -/
structure FeeParamsV1 where
  config : FeeModelConfigV1
  l1GasPrice : UInt64

/-- `FeeParamsV2`. The source keeps the fields private and names its converting accessors after
them; here the fields carry the unit they are in. -/
structure FeeParamsV2 where
  configInWei : FeeModelConfigV2
  l1GasPriceInWei : UInt64
  l1PubdataPriceInWei : UInt64
  conversionRatio : BaseTokenConversionRatio

namespace FeeParamsV2

def new (config : FeeModelConfigV2) (l1GasPrice l1PubdataPrice : UInt64)
    (conversionRatio : BaseTokenConversionRatio) : FeeParamsV2 :=
  ⟨config, l1GasPrice, l1PubdataPrice, conversionRatio⟩

/-- `convert_to_base_token`: the price times the ratio, in `u128`, saturated to `u64::MAX`. Its
`try_into` fails only above `u64::MAX`, so the `panic!` for a failure below it is unreachable. -/
def convertToBaseToken (self : FeeParamsV2) (priceInWei : UInt64) : UInt64 :=
  let convertedPrice := priceInWei.toNat * self.conversionRatio.numerator.toNat /
    self.conversionRatio.denominator.toNat
  if convertedPrice ≤ U64_MAX then UInt64.ofNat convertedPrice else UInt64.ofNat U64_MAX

/-- `config`: the minimal L2 gas price in the base token. -/
def config (self : FeeParamsV2) : FeeModelConfigV2 :=
  { self.configInWei with
    minimalL2GasPrice := self.convertToBaseToken self.configInWei.minimalL2GasPrice }

/-- `l1_gas_price`, in the base token. -/
def l1GasPrice (self : FeeParamsV2) : UInt64 := self.convertToBaseToken self.l1GasPriceInWei

/-- `l1_pubdata_price`, in the base token. -/
def l1PubdataPrice (self : FeeParamsV2) : UInt64 := self.convertToBaseToken self.l1PubdataPriceInWei

end FeeParamsV2

/-- `FeeParams`. -/
inductive FeeParams where
  | v1 (params : FeeParamsV1)
  | v2 (params : FeeParamsV2)

/-- `L1PeggedBatchFeeModelInput`. -/
structure L1PeggedBatchFeeModelInput where
  fairL2GasPrice : UInt64
  l1GasPrice : UInt64
  deriving DecidableEq, Repr

/-- `PubdataIndependentBatchFeeModelInput`. -/
structure PubdataIndependentBatchFeeModelInput where
  fairL2GasPrice : UInt64
  fairPubdataPrice : UInt64
  l1GasPrice : UInt64
  deriving DecidableEq, Repr

/-- `BatchFeeInput`. -/
inductive BatchFeeInput where
  | l1Pegged (input : L1PeggedBatchFeeModelInput)
  | pubdataIndependent (input : PubdataIndependentBatchFeeModelInput)
  deriving DecidableEq, Repr

/-- `L1_GAS_PER_PUBDATA_BYTE`. -/
def L1_GAS_PER_PUBDATA_BYTE : UInt32 := 17

/-- `BatchFeeInput::into_pubdata_independent`: an L1-pegged input prices pubdata at
`L1_GAS_PER_PUBDATA_BYTE` L1 gas per byte. -/
def BatchFeeInput.intoPubdataIndependent : BatchFeeInput → PubdataIndependentBatchFeeModelInput
  | .pubdataIndependent input => input
  | .l1Pegged input =>
    { fairL2GasPrice := input.fairL2GasPrice
      fairPubdataPrice := input.l1GasPrice * L1_GAS_PER_PUBDATA_BYTE.toUInt64
      l1GasPrice := input.l1GasPrice }

@[simp] theorem BatchFeeInput.intoPubdataIndependent_pubdataIndependent
    (input : PubdataIndependentBatchFeeModelInput) :
    (BatchFeeInput.pubdataIndependent input).intoPubdataIndependent = input := rfl

/-- `compute_batch_fee_model_input_v1`. -/
def computeBatchFeeModelInputV1 (params : FeeParamsV1) (l1GasPriceScaleFactor : Binary64) :
    L1PeggedBatchFeeModelInput :=
  { l1GasPrice := scalePrice params.l1GasPrice l1GasPriceScaleFactor
    fairL2GasPrice := params.config.minimalL2GasPrice }

/-- `compute_batch_fee_model_input_v2`: the minimal L2 gas price and the L1 pubdata price, each plus
its share of the batch overhead. -/
def computeBatchFeeModelInputV2 (params : FeeParamsV2)
    (l1GasPriceScaleFactor l1PubdataPriceScaleFactor : Binary64) :
    Option PubdataIndependentBatchFeeModelInput := do
  let config := params.config
  -- Firstly, we scale the gas price and pubdata price in case it is needed.
  let l1GasPrice := scalePrice params.l1GasPrice l1GasPriceScaleFactor
  let l1PubdataPrice := scalePrice params.l1PubdataPrice l1PubdataPriceScaleFactor
  let l1BatchOverheadWei := l1GasPrice.toNat * config.batchOverheadL1Gas.toNat
  let fairL2GasPrice ← do
    let l1BatchOverheadPerGas ← ceilDivU256 l1BatchOverheadWei config.maxGasPerBatch.toNat
    let gasOverheadWei := scalePrice (← asU64 l1BatchOverheadPerGas) config.computeOverheadPart
    pure (config.minimalL2GasPrice + gasOverheadWei)
  let fairPubdataPrice ← do
    let l1BatchOverheadPerPubdata ← ceilDivU256 l1BatchOverheadWei config.maxPubdataPerBatch.toNat
    let pubdataOverheadWei :=
      scalePrice (← asU64 l1BatchOverheadPerPubdata) config.pubdataOverheadPart
    pure (l1PubdataPrice + pubdataOverheadWei)
  pure ⟨fairL2GasPrice, fairPubdataPrice, l1GasPrice⟩

/-- `MAXIMUM_L2_GAS_PRICE`, the bootloader's `MAX_ALLOWED_FAIR_L2_GAS_PRICE`. -/
def MAXIMUM_L2_GAS_PRICE : UInt64 := 10000000000000

/-- `MAXIMUM_PUBDATA_PRICE`, the bootloader's `MAX_ALLOWED_FAIR_PUBDATA_PRICE`. -/
def MAXIMUM_PUBDATA_PRICE : UInt64 := 1000000000000000

/-- `clip_batch_fee_model_input_v2`: both fair prices limited to the bootloader's maxima. -/
def clipBatchFeeModelInputV2 (feeModel : PubdataIndependentBatchFeeModelInput) :
    PubdataIndependentBatchFeeModelInput :=
  { l1GasPrice := feeModel.l1GasPrice
    fairL2GasPrice :=
      if feeModel.fairL2GasPrice < MAXIMUM_L2_GAS_PRICE then feeModel.fairL2GasPrice
      else MAXIMUM_L2_GAS_PRICE
    fairPubdataPrice :=
      if feeModel.fairPubdataPrice < MAXIMUM_PUBDATA_PRICE then feeModel.fairPubdataPrice
      else MAXIMUM_PUBDATA_PRICE }

/-- `FeeParams::scale`; `none` is a panic of the V2 computation. -/
def FeeParams.scale (self : FeeParams)
    (l1GasPriceScaleFactor l1PubdataPriceScaleFactor : Binary64) : Option BatchFeeInput :=
  match self with
  | .v1 params => some (.l1Pegged (computeBatchFeeModelInputV1 params l1GasPriceScaleFactor))
  | .v2 params =>
    (computeBatchFeeModelInputV2 params l1GasPriceScaleFactor l1PubdataPriceScaleFactor).map
      fun input => .pubdataIndependent (clipBatchFeeModelInputV2 input)

end ZksyncEra.FeeModel
