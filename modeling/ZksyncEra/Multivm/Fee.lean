import ZksyncEra.FeeModel.FeeParams

/-!
The fee a transaction sees in the VMs from 1.4.1 on (`multivm/src/utils/mod.rs` and the versions'
`utils/fee.rs`): the base fee and gas per pubdata derived from a batch fee input, and the fee
input adjusted so that a transaction's limit on gas per pubdata and a cap on the base fee hold.

`u64` values are `UInt64`, `U256` values natural numbers. The panics of `u64::div_ceil` on a zero
divisor and of `U256::as_u64` above `u64::MAX` are `none`. Only the VM versions from `Vm1_4_1` on
are modelled; the earlier ones derive the fee from an L1-pegged input by formulas of their own.
-/

namespace ZksyncEra.Multivm

open FeeModel

/-- `u64::div_ceil`, which panics on a zero divisor. -/
def divCeil (self rhs : UInt64) : Option UInt64 :=
  if rhs = 0 then none
  else
    let d := self / rhs
    let r := self % rhs
    some (if r > 0 then d + 1 else d)

/-- `u64::div_ceil` rounds the quotient up; its increment never wraps. -/
theorem divCeil_eq_ceilDiv {a b : UInt64} (positive : b ≠ 0) :
    ∃ c, divCeil a b = some c ∧ c.toNat = a.toNat ⌈/⌉ b.toNat := by
  have bPos : 0 < b.toNat := by
    rcases Nat.eq_zero_or_pos b.toNat with zero | pos
    · exact absurd (UInt64.toNat_inj.mp (by simpa using zero)) positive
    · exact pos
  have split := Nat.div_add_mod a.toNat b.toNat
  have remainder := Nat.mod_lt a.toNat bPos
  -- `(a + b - 1) / b` is the quotient, plus one exactly when the remainder is not zero
  have ceil : a.toNat ⌈/⌉ b.toNat =
      a.toNat / b.toNat + if a.toNat % b.toNat > 0 then 1 else 0 := by
    rw [Nat.ceilDiv_eq_add_pred_div]
    split_ifs with some
    · rw [show a.toNat + b.toNat - 1 = (a.toNat % b.toNat - 1) + b.toNat * (a.toNat / b.toNat + 1)
          by rw [Nat.mul_add]; omega, Nat.add_mul_div_left _ _ bPos,
        Nat.div_eq_of_lt (by omega), Nat.zero_add]
    · rw [show a.toNat + b.toNat - 1 = (b.toNat - 1) + b.toNat * (a.toNat / b.toNat) by omega,
        Nat.add_mul_div_left _ _ bPos, Nat.div_eq_of_lt (by omega), Nat.zero_add, Nat.add_zero]
  have value : divCeil a b = some (if a % b > 0 then a / b + 1 else a / b) := by
    simp only [divCeil, positive, if_false]
  refine ⟨_, value, ?_⟩
  rw [ceil]
  split_ifs with some some' some'
  · -- a nonzero remainder needs a divisor of at least two, so the quotient is below `u64::MAX`
    have quotient : a.toNat / b.toNat + 1 < 2 ^ 64 := by
      have := a.toNat_lt
      have : b.toNat * (a.toNat / b.toNat) + 1 ≤ a.toNat := by omega
      have : a.toNat / b.toNat ≤ b.toNat * (a.toNat / b.toNat) := Nat.le_mul_of_pos_left _ bPos
      omega
    rw [UInt64.toNat_add, UInt64.toNat_div, UInt64.toNat_one, Nat.mod_eq_of_lt quotient]
  · exact absurd (by simpa [UInt64.lt_iff_toNat_lt, UInt64.toNat_mod] using some) some'
  · exact absurd (by simpa [UInt64.lt_iff_toNat_lt, UInt64.toNat_mod] using some') some
  · rw [UInt64.toNat_div, Nat.add_zero]

/-- The VM versions from `Vm1_4_1` on. -/
inductive VmVersion where
  | vm1_4_1
  | vm1_4_2
  | vm1_5_0SmallBootloaderMemory
  | vm1_5_0IncreasedBootloaderMemory
  | vmGateway
  | vmEvmEmulator
  deriving DecidableEq, Repr

/-- `MAX_L2_TX_GAS_LIMIT`. -/
def MAX_L2_TX_GAS_LIMIT : UInt64 := 80000000

/-- `U256::MAX`. -/
def U256_MAX : Nat := 2 ^ 256 - 1

/-- `derive_base_fee_and_gas_per_pubdata` of a VM from 1.4.1 on, for its
`MAX_GAS_PER_PUBDATA_BYTE`: the base fee is high enough for the maximal gas per pubdata to pay
for the pubdata. -/
def deriveBaseFeeAndGasPerPubdataWith (maxGasPerPubdataByte : UInt64)
    (feeInput : PubdataIndependentBatchFeeModelInput) : Option (UInt64 × UInt64) := do
  let baseFee :=
    max feeInput.fairL2GasPrice (← divCeil feeInput.fairPubdataPrice maxGasPerPubdataByte)
  let gasPerPubdata ←
    if feeInput.fairPubdataPrice = 0 then pure 0 else divCeil feeInput.fairPubdataPrice baseFee
  pure (baseFee, gasPerPubdata)

namespace Vm1_4_1

/-- `GUARANTEED_PUBDATA_PER_L1_BATCH`. -/
def GUARANTEED_PUBDATA_PER_L1_BATCH : UInt64 := 2500

/-- `MAX_GAS_PER_PUBDATA_BYTE`. -/
def MAX_GAS_PER_PUBDATA_BYTE : UInt64 := MAX_L2_TX_GAS_LIMIT / GUARANTEED_PUBDATA_PER_L1_BATCH

/-- `derive_base_fee_and_gas_per_pubdata`. -/
def deriveBaseFeeAndGasPerPubdata : PubdataIndependentBatchFeeModelInput → Option (UInt64 × UInt64) :=
  deriveBaseFeeAndGasPerPubdataWith MAX_GAS_PER_PUBDATA_BYTE

end Vm1_4_1

namespace Vm1_4_2

/-- `GUARANTEED_PUBDATA_PER_L1_BATCH`. -/
def GUARANTEED_PUBDATA_PER_L1_BATCH : UInt64 := 2500

/-- `MAX_GAS_PER_PUBDATA_BYTE`. -/
def MAX_GAS_PER_PUBDATA_BYTE : UInt64 := MAX_L2_TX_GAS_LIMIT / GUARANTEED_PUBDATA_PER_L1_BATCH

/-- `derive_base_fee_and_gas_per_pubdata`. -/
def deriveBaseFeeAndGasPerPubdata : PubdataIndependentBatchFeeModelInput → Option (UInt64 × UInt64) :=
  deriveBaseFeeAndGasPerPubdataWith MAX_GAS_PER_PUBDATA_BYTE

end Vm1_4_2

namespace VmLatest

/-- `MAX_GAS_PER_PUBDATA_BYTE`. -/
def MAX_GAS_PER_PUBDATA_BYTE : UInt64 := 50000

/-- `derive_base_fee_and_gas_per_pubdata`. -/
def deriveBaseFeeAndGasPerPubdata : PubdataIndependentBatchFeeModelInput → Option (UInt64 × UInt64) :=
  deriveBaseFeeAndGasPerPubdataWith MAX_GAS_PER_PUBDATA_BYTE

end VmLatest

/-- `get_max_gas_per_pubdata_byte`. -/
def getMaxGasPerPubdataByte : VmVersion → UInt64
  | .vm1_4_1 => Vm1_4_1.MAX_GAS_PER_PUBDATA_BYTE
  | .vm1_4_2 => Vm1_4_2.MAX_GAS_PER_PUBDATA_BYTE
  | .vm1_5_0SmallBootloaderMemory | .vm1_5_0IncreasedBootloaderMemory | .vmGateway
  | .vmEvmEmulator => VmLatest.MAX_GAS_PER_PUBDATA_BYTE

/-- `derive_base_fee_and_gas_per_pubdata`, dispatching on the VM version. -/
def deriveBaseFeeAndGasPerPubdata (batchFeeInput : BatchFeeInput) :
    VmVersion → Option (UInt64 × UInt64)
  | .vm1_4_1 => Vm1_4_1.deriveBaseFeeAndGasPerPubdata batchFeeInput.intoPubdataIndependent
  | .vm1_4_2 => Vm1_4_2.deriveBaseFeeAndGasPerPubdata batchFeeInput.intoPubdataIndependent
  | .vm1_5_0SmallBootloaderMemory | .vm1_5_0IncreasedBootloaderMemory | .vmGateway
  | .vmEvmEmulator => VmLatest.deriveBaseFeeAndGasPerPubdata batchFeeInput.intoPubdataIndependent

/-- Every version derives by the one formula, with its own maximal gas per pubdata. -/
theorem deriveBaseFeeAndGasPerPubdata_eq (batchFeeInput : BatchFeeInput) (vmVersion : VmVersion) :
    deriveBaseFeeAndGasPerPubdata batchFeeInput vmVersion =
      deriveBaseFeeAndGasPerPubdataWith (getMaxGasPerPubdataByte vmVersion)
        batchFeeInput.intoPubdataIndependent := by
  cases vmVersion <;> rfl

/-- `adjust_pubdata_price_for_tx`: the batch fee input unchanged if its gas per pubdata is within
the transaction's limit (bounded by the VM's maximum) and its base fee within `max_base_fee`;
otherwise a fair L2 gas price capped at `max_base_fee`, and a pubdata price lowered for the gas
per pubdata to fall within the limit. -/
def adjustPubdataPriceForTx (batchFeeInput : BatchFeeInput) (txGasPerPubdataLimit : Nat)
    (maxBaseFee : Option Nat) (vmVersion : VmVersion) : Option BatchFeeInput := do
  -- If no max base fee was provided, we just use the maximal one for convenience.
  let maxBaseFee := maxBaseFee.getD U256_MAX
  let boundedTxGasPerPubdataLimit :=
    min txGasPerPubdataLimit (getMaxGasPerPubdataByte vmVersion).toNat
  let (currentBaseFee, currentGasPerPubdata) ←
    deriveBaseFeeAndGasPerPubdata batchFeeInput vmVersion
  if currentGasPerPubdata.toNat ≤ boundedTxGasPerPubdataLimit ∧
      currentBaseFee.toNat ≤ maxBaseFee then
    pure batchFeeInput
  else
    match batchFeeInput with
    | .l1Pegged feeInput =>
      let currentL2FairGasPrice := feeInput.fairL2GasPrice.toNat
      let fairL2GasPrice :=
        if maxBaseFee < currentL2FairGasPrice then maxBaseFee else currentL2FairGasPrice
      let newL1GasPrice := fairL2GasPrice * (boundedTxGasPerPubdataLimit - 1) / 17
      pure (.l1Pegged
        { l1GasPrice := ← asU64 newL1GasPrice
          fairL2GasPrice := ← asU64 fairL2GasPrice })
    | .pubdataIndependent feeInput =>
      let currentL2FairGasPrice := feeInput.fairL2GasPrice.toNat
      let fairL2GasPrice :=
        if maxBaseFee < currentL2FairGasPrice then maxBaseFee else currentL2FairGasPrice
      -- We want to adjust gas per pubdata to be min(bounded_tx_gas_per_pubdata_limit, current_gas_per_pubdata).
      let desiredGasPerPubdata := min boundedTxGasPerPubdataLimit currentGasPerPubdata.toNat
      let newFairPubdataPrice := fairL2GasPrice * (desiredGasPerPubdata - 1)
      pure (.pubdataIndependent
        { feeInput with
          fairPubdataPrice := ← asU64 newFairPubdataPrice
          fairL2GasPrice := ← asU64 fairL2GasPrice })

end ZksyncEra.Multivm
