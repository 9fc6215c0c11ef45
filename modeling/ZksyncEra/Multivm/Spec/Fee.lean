import ZksyncEra.Multivm.Fee

/-!
What the fee derivation and the per-transaction adjustment guarantee, for every VM version from
1.4.1 on.

The base fee is the fair L2 gas price, raised where needed so that the VM's maximal gas per pubdata
pays for a byte of pubdata; the gas per pubdata is the pubdata price over the base fee, rounded up.
So the derived pair pays for the pubdata, by less than one gas too much, within the VM's maximum.

The adjustment solves the same rounding backwards: it caps the fair L2 gas price at the maximal base
fee and sets the pubdata price to that price times one less than the gas per pubdata it wants.
Because that gas per pubdata is at most the current one, the new pubdata price is below the old one
and both casts to `u64` succeed; because it is at most the VM's maximum, the derivation then keeps
the capped price as the base fee, and its gas per pubdata is within the transaction's limit.
-/

namespace ZksyncEra.Multivm

open FeeModel

/-! ### Rounding up -/

section CeilDiv

variable {a b : Nat}

theorem le_mul_ceilDiv (positive : 0 < b) : a ≤ b * (a ⌈/⌉ b) :=
  le_smul_ceilDiv positive

theorem ceilDiv_le_of_le_mul {c : Nat} (positive : 0 < b) (bound : a ≤ b * c) : a ⌈/⌉ b ≤ c :=
  (ceilDiv_le_iff_le_mul positive).mpr bound

/-- Rounding up overshoots by less than one divisor. -/
theorem mul_pred_ceilDiv_lt (positive : 0 < b) (nonzero : 0 < a) : b * (a ⌈/⌉ b - 1) < a := by
  by_contra! covered
  have atMost := ceilDiv_le_of_le_mul positive covered
  -- so the quotient is zero, and `a ≤ b * 0`
  have zero : a ⌈/⌉ b = 0 := by omega
  have := le_mul_ceilDiv (a := a) positive
  rw [zero, Nat.mul_zero] at this
  omega

theorem ceilDiv_pos (positive : 0 < b) (nonzero : 0 < a) : 0 < a ⌈/⌉ b := by
  have := le_mul_ceilDiv (a := a) positive
  by_contra! zero
  rw [Nat.le_zero.mp zero, Nat.mul_zero] at this
  omega

end CeilDiv

/-! ### The derivation -/

/-- What a derived pair promises of a fee input: a base fee at least the fair L2 gas price, and a
gas per pubdata within the VM's maximum at which the base fee pays for a byte of pubdata, by less
than one gas too much. -/
structure DerivedFee (maxGasPerPubdataByte : Nat) (input : PubdataIndependentBatchFeeModelInput)
    (baseFee gasPerPubdata : Nat) : Prop where
  fair_le : input.fairL2GasPrice.toNat ≤ baseFee
  le_max : gasPerPubdata ≤ maxGasPerPubdataByte
  pays : input.fairPubdataPrice.toNat ≤ baseFee * gasPerPubdata
  tight : 0 < input.fairPubdataPrice.toNat →
    baseFee * (gasPerPubdata - 1) < input.fairPubdataPrice.toNat
  free : input.fairPubdataPrice.toNat = 0 → gasPerPubdata = 0

/-- The derivation computes, in `u64`, the base fee `max(fair_l2, ⌈pubdata / max⌉)` and the gas per
pubdata `⌈pubdata / base⌉`; neither division is by zero. -/
theorem deriveBaseFeeAndGasPerPubdataWith_eq {maxGasPerPubdataByte : UInt64}
    (positive : maxGasPerPubdataByte ≠ 0) (input : PubdataIndependentBatchFeeModelInput) :
    ∃ baseFee gasPerPubdata,
      deriveBaseFeeAndGasPerPubdataWith maxGasPerPubdataByte input = some (baseFee, gasPerPubdata) ∧
      baseFee.toNat = max input.fairL2GasPrice.toNat
        (input.fairPubdataPrice.toNat ⌈/⌉ maxGasPerPubdataByte.toNat) ∧
      gasPerPubdata.toNat = if input.fairPubdataPrice.toNat = 0 then 0
        else input.fairPubdataPrice.toNat ⌈/⌉ baseFee.toNat := by
  obtain ⟨perMax, perMaxIs, perMaxValue⟩ :=
    divCeil_eq_ceilDiv (a := input.fairPubdataPrice) positive
  have baseValue : (max input.fairL2GasPrice perMax).toNat =
      max input.fairL2GasPrice.toNat (input.fairPubdataPrice.toNat ⌈/⌉ maxGasPerPubdataByte.toNat) := by
    rw [UInt64.toNat_max, perMaxValue]
  by_cases free : input.fairPubdataPrice = 0
  · refine ⟨max input.fairL2GasPrice perMax, 0, ?_, baseValue, by simp [free]⟩
    simp only [deriveBaseFeeAndGasPerPubdataWith, perMaxIs, Option.bind_eq_bind, Option.bind_some]
    simp only [free, if_true]
    rfl
  -- a nonzero pubdata price needs a nonzero base fee
  have priced : 0 < input.fairPubdataPrice.toNat := by
    rcases Nat.eq_zero_or_pos input.fairPubdataPrice.toNat with zero | pos
    · exact absurd (UInt64.toNat_inj.mp (by simpa using zero)) free
    · exact pos
  have maxPos : 0 < maxGasPerPubdataByte.toNat := by
    rcases Nat.eq_zero_or_pos maxGasPerPubdataByte.toNat with zero | pos
    · exact absurd (UInt64.toNat_inj.mp (by simpa using zero)) positive
    · exact pos
  have baseNonzero : max input.fairL2GasPrice perMax ≠ 0 := by
    intro zero
    have := ceilDiv_pos maxPos priced
    have := congrArg UInt64.toNat zero
    rw [baseValue] at this
    simp only [UInt64.toNat_zero] at this
    omega
  obtain ⟨gas, gasIs, gasValue⟩ :=
    divCeil_eq_ceilDiv (a := input.fairPubdataPrice) baseNonzero
  refine ⟨max input.fairL2GasPrice perMax, gas, ?_, baseValue, ?_⟩
  · simp only [deriveBaseFeeAndGasPerPubdataWith, perMaxIs, Option.bind_eq_bind, Option.bind_some,
      free, if_false, gasIs]
    rfl
  · rw [if_neg priced.ne', gasValue]

/-- The derived pair keeps every promise, for any positive maximum. -/
theorem derivedFee_of_eq {maxGasPerPubdataByte : Nat} (positive : 0 < maxGasPerPubdataByte)
    (input : PubdataIndependentBatchFeeModelInput) :
    DerivedFee maxGasPerPubdataByte input
      (max input.fairL2GasPrice.toNat (input.fairPubdataPrice.toNat ⌈/⌉ maxGasPerPubdataByte))
      (if input.fairPubdataPrice.toNat = 0 then 0
        else input.fairPubdataPrice.toNat ⌈/⌉
          max input.fairL2GasPrice.toNat (input.fairPubdataPrice.toNat ⌈/⌉ maxGasPerPubdataByte)) := by
  set price := input.fairPubdataPrice.toNat
  set fair := input.fairL2GasPrice.toNat
  have raised : price ⌈/⌉ maxGasPerPubdataByte ≤ max fair (price ⌈/⌉ maxGasPerPubdataByte) :=
    Nat.le_max_right _ _
  rcases Nat.eq_zero_or_pos price with free | priced
  · simp only [free, if_true]
    exact ⟨Nat.le_max_left _ _, Nat.zero_le _, free.le.trans (Nat.zero_le _),
      fun priced => absurd free priced.ne', fun _ => rfl⟩
  have basePos : 0 < max fair (price ⌈/⌉ maxGasPerPubdataByte) :=
    lt_of_lt_of_le (ceilDiv_pos positive priced) raised
  simp only [priced.ne', if_false]
  refine ⟨Nat.le_max_left _ _, ceilDiv_le_of_le_mul basePos ?_, le_mul_ceilDiv basePos,
    fun _ => mul_pred_ceilDiv_lt basePos priced, fun free => absurd free priced.ne'⟩
  -- the maximal gas per pubdata at the raised base fee pays for the pubdata
  calc price ≤ maxGasPerPubdataByte * (price ⌈/⌉ maxGasPerPubdataByte) := le_mul_ceilDiv positive
    _ ≤ maxGasPerPubdataByte * max fair (price ⌈/⌉ maxGasPerPubdataByte) :=
      Nat.mul_le_mul_left _ raised
    _ = max fair (price ⌈/⌉ maxGasPerPubdataByte) * maxGasPerPubdataByte := Nat.mul_comm _ _

theorem getMaxGasPerPubdataByte_pos (vmVersion : VmVersion) :
    0 < (getMaxGasPerPubdataByte vmVersion).toNat := by
  cases vmVersion <;> decide

theorem getMaxGasPerPubdataByte_ne_zero (vmVersion : VmVersion) :
    getMaxGasPerPubdataByte vmVersion ≠ 0 := by
  cases vmVersion <;> decide

/-- Every version derives a pair that keeps the promises. -/
theorem deriveBaseFeeAndGasPerPubdata_derivedFee (batchFeeInput : BatchFeeInput)
    (vmVersion : VmVersion) :
    ∃ baseFee gasPerPubdata,
      deriveBaseFeeAndGasPerPubdata batchFeeInput vmVersion = some (baseFee, gasPerPubdata) ∧
      DerivedFee (getMaxGasPerPubdataByte vmVersion).toNat batchFeeInput.intoPubdataIndependent
        baseFee.toNat gasPerPubdata.toNat := by
  obtain ⟨baseFee, gasPerPubdata, derived, baseValue, gasValue⟩ :=
    deriveBaseFeeAndGasPerPubdataWith_eq (getMaxGasPerPubdataByte_ne_zero vmVersion)
      batchFeeInput.intoPubdataIndependent
  refine ⟨baseFee, gasPerPubdata, by rw [deriveBaseFeeAndGasPerPubdata_eq]; exact derived, ?_⟩
  rw [gasValue, baseValue]
  exact derivedFee_of_eq (getMaxGasPerPubdataByte_pos vmVersion) _

/-! ### The adjustment -/

/-- The pair derived from a fee input fits a transaction: gas per pubdata within its limit and the
VM's maximum, and base fee within the maximal one. -/
def Fits (maxGasPerPubdataByte limit maxBaseFee baseFee gasPerPubdata : Nat) : Prop :=
  gasPerPubdata ≤ min limit maxGasPerPubdataByte ∧ baseFee ≤ maxBaseFee

instance (maxGasPerPubdataByte limit maxBaseFee baseFee gasPerPubdata : Nat) :
    Decidable (Fits maxGasPerPubdataByte limit maxBaseFee baseFee gasPerPubdata) :=
  inferInstanceAs (Decidable (_ ∧ _))

/-- An input whose derived pair fits is returned as it is. -/
theorem adjustPubdataPriceForTx_of_fits {batchFeeInput : BatchFeeInput} {vmVersion : VmVersion}
    {baseFee gasPerPubdata : UInt64}
    (derived : deriveBaseFeeAndGasPerPubdata batchFeeInput vmVersion = some (baseFee, gasPerPubdata))
    (limit : Nat) (maxBaseFee : Option Nat)
    (fits : Fits (getMaxGasPerPubdataByte vmVersion).toNat limit (maxBaseFee.getD U256_MAX)
      baseFee.toNat gasPerPubdata.toNat) :
    adjustPubdataPriceForTx batchFeeInput limit maxBaseFee vmVersion = some batchFeeInput := by
  have within : gasPerPubdata.toNat ≤ min limit (getMaxGasPerPubdataByte vmVersion).toNat ∧
      baseFee.toNat ≤ maxBaseFee.getD U256_MAX := ⟨fits.1.trans (by omega), fits.2⟩
  simp only [adjustPubdataPriceForTx, derived, Option.bind_eq_bind, Option.bind_some, within,
    and_self, if_true]
  rfl

theorem toNat_le_U64_MAX (x : UInt64) : x.toNat ≤ U64_MAX := by
  have := x.toNat_lt
  simp only [U64_MAX]
  omega

theorem toNat_ofNat_of_le {x : Nat} (fits : x ≤ U64_MAX) : (UInt64.ofNat x).toNat = x :=
  UInt64.toNat_ofNat_of_lt' (by simp only [U64_MAX] at fits; simp only [UInt64.size]; omega)

/-- The adjusted pubdata price is at most the old one: the capped fair price is at most the base
fee, and the wanted gas per pubdata at most the current one. -/
theorem adjustedPubdataPrice_le {input : PubdataIndependentBatchFeeModelInput}
    {maxGasPerPubdataByte baseFee gasPerPubdata : Nat}
    (promises : DerivedFee maxGasPerPubdataByte input baseFee gasPerPubdata) (cap bounded : Nat) :
    min input.fairL2GasPrice.toNat cap * (min bounded gasPerPubdata - 1) ≤
      input.fairPubdataPrice.toNat := by
  rcases Nat.eq_zero_or_pos input.fairPubdataPrice.toNat with free | priced
  · rw [promises.free free, Nat.min_zero, Nat.zero_sub, Nat.mul_zero]
    exact Nat.zero_le _
  · calc min input.fairL2GasPrice.toNat cap * (min bounded gasPerPubdata - 1)
        ≤ baseFee * (gasPerPubdata - 1) :=
          Nat.mul_le_mul ((Nat.min_le_left _ _).trans promises.fair_le) (by omega)
      _ ≤ input.fairPubdataPrice.toNat := (promises.tight priced).le

/-- The adjusted price of a pubdata-independent input: the fair L2 gas price capped at the maximal
base fee, and that price times one less than the wanted gas per pubdata for the pubdata. -/
theorem adjustPubdataPriceForTx_of_not_fits {input : PubdataIndependentBatchFeeModelInput}
    {vmVersion : VmVersion} {baseFee gasPerPubdata : UInt64}
    (derived : deriveBaseFeeAndGasPerPubdata (.pubdataIndependent input) vmVersion =
      some (baseFee, gasPerPubdata))
    (promises : DerivedFee (getMaxGasPerPubdataByte vmVersion).toNat input baseFee.toNat
      gasPerPubdata.toNat)
    (limit : Nat) (maxBaseFee : Option Nat)
    (notFits : ¬ Fits (getMaxGasPerPubdataByte vmVersion).toNat limit (maxBaseFee.getD U256_MAX)
      baseFee.toNat gasPerPubdata.toNat) :
    adjustPubdataPriceForTx (.pubdataIndependent input) limit maxBaseFee vmVersion =
      some (.pubdataIndependent
        { input with
          fairPubdataPrice := UInt64.ofNat (min input.fairL2GasPrice.toNat (maxBaseFee.getD U256_MAX) *
            (min (min limit (getMaxGasPerPubdataByte vmVersion).toNat) gasPerPubdata.toNat - 1))
          fairL2GasPrice :=
            UInt64.ofNat (min input.fairL2GasPrice.toNat (maxBaseFee.getD U256_MAX)) }) := by
  have outside : ¬ (gasPerPubdata.toNat ≤ min limit (getMaxGasPerPubdataByte vmVersion).toNat ∧
      baseFee.toNat ≤ maxBaseFee.getD U256_MAX) := by
    rintro ⟨gas, base⟩
    exact notFits ⟨by omega, base⟩
  simp only [adjustPubdataPriceForTx, derived, Option.bind_eq_bind, Option.bind_some,
    if_neg outside]
  generalize maxBaseFee.getD U256_MAX = cap
  generalize min limit (getMaxGasPerPubdataByte vmVersion).toNat = bounded
  have capped : (if cap < input.fairL2GasPrice.toNat then cap else input.fairL2GasPrice.toNat) =
      min input.fairL2GasPrice.toNat cap := by
    split_ifs with below <;> omega
  -- the capped fair price is at most the fair price, and the new pubdata price at most the old
  have fairFits : min input.fairL2GasPrice.toNat cap ≤ U64_MAX :=
    (Nat.min_le_left _ _).trans (toNat_le_U64_MAX _)
  have pubdataFits : min input.fairL2GasPrice.toNat cap * (min bounded gasPerPubdata.toNat - 1) ≤
      U64_MAX :=
    (adjustedPubdataPrice_le promises cap bounded).trans (toNat_le_U64_MAX _)
  rw [capped, asU64_of_le pubdataFits, asU64_of_le fairFits]
  rfl

/-- The adjusted input fits: with its pubdata price at most the capped price times the VM's
maximum, the derivation keeps the capped price as the base fee, and the gas per pubdata it derives
is at most the one the adjustment wanted, less one. -/
theorem derive_adjusted_fits (vmVersion : VmVersion) (input : PubdataIndependentBatchFeeModelInput)
    {fair desired limit cap : Nat} (fairIs : fair = min input.fairL2GasPrice.toNat cap)
    (wanted : desired ≤ min limit (getMaxGasPerPubdataByte vmVersion).toNat)
    (fairFits : fair ≤ U64_MAX) (pubdataFits : fair * (desired - 1) ≤ U64_MAX) :
    ∃ baseFee gasPerPubdata,
      deriveBaseFeeAndGasPerPubdata
        (.pubdataIndependent { input with
          fairPubdataPrice := UInt64.ofNat (fair * (desired - 1))
          fairL2GasPrice := UInt64.ofNat fair }) vmVersion = some (baseFee, gasPerPubdata) ∧
      Fits (getMaxGasPerPubdataByte vmVersion).toNat limit cap baseFee.toNat gasPerPubdata.toNat := by
  have maxPos := getMaxGasPerPubdataByte_pos vmVersion
  obtain ⟨baseFee, gasPerPubdata, derived, baseValue, gasValue⟩ :=
    deriveBaseFeeAndGasPerPubdataWith_eq (getMaxGasPerPubdataByte_ne_zero vmVersion)
      { input with
        fairPubdataPrice := UInt64.ofNat (fair * (desired - 1))
        fairL2GasPrice := UInt64.ofNat fair }
  simp only [toNat_ofNat_of_le fairFits, toNat_ofNat_of_le pubdataFits] at baseValue gasValue
  -- the pubdata price is at most the VM's maximum times the capped price, so the base fee is that price
  have perMax : fair * (desired - 1) ⌈/⌉ (getMaxGasPerPubdataByte vmVersion).toNat ≤ fair := by
    apply ceilDiv_le_of_le_mul maxPos
    calc fair * (desired - 1) ≤ fair * (getMaxGasPerPubdataByte vmVersion).toNat :=
          Nat.mul_le_mul_left _ (by omega)
      _ = (getMaxGasPerPubdataByte vmVersion).toNat * fair := Nat.mul_comm _ _
  rw [Nat.max_eq_left perMax] at baseValue
  refine ⟨baseFee, gasPerPubdata, by rw [deriveBaseFeeAndGasPerPubdata_eq]; exact derived, ?_, ?_⟩
  · rw [gasValue, baseValue]
    split_ifs with free
    · exact Nat.zero_le _
    · have fairPos : 0 < fair := by
        rcases Nat.eq_zero_or_pos fair with zero | pos
        · rw [zero, Nat.zero_mul] at free
          exact absurd rfl free
        · exact pos
      exact (ceilDiv_le_of_le_mul fairPos (le_refl _)).trans (by omega)
  · rw [baseValue, fairIs]
    exact Nat.min_le_right _ _

/-- What the adjustment of an input whose derived pair does not fit promises: the L1 gas price
kept, the fair L2 gas price capped at the maximal base fee, a pubdata price no higher than before,
and a derived pair that fits. -/
structure AdjustedFee (vmVersion : VmVersion) (limit maxBaseFee : Nat)
    (input adjusted : PubdataIndependentBatchFeeModelInput) : Prop where
  l1GasPrice_eq : adjusted.l1GasPrice = input.l1GasPrice
  fairL2GasPrice_eq : adjusted.fairL2GasPrice.toNat = min input.fairL2GasPrice.toNat maxBaseFee
  fairPubdataPrice_le : adjusted.fairPubdataPrice.toNat ≤ input.fairPubdataPrice.toNat
  fits : ∃ baseFee gasPerPubdata,
    deriveBaseFeeAndGasPerPubdata (.pubdataIndependent adjusted) vmVersion =
      some (baseFee, gasPerPubdata) ∧
    Fits (getMaxGasPerPubdataByte vmVersion).toNat limit maxBaseFee baseFee.toNat gasPerPubdata.toNat

/-- Fee adjustment for a transaction yields an admissible fee input. The derived pair of a
pubdata-independent input keeps its promises; the adjustment never panics; it returns the input
itself when the pair fits the transaction, and otherwise an input whose own derived pair fits,
with the fair prices capped and lowered. -/
theorem adjustPubdataPriceForTx_admissible (vmVersion : VmVersion)
    (input : PubdataIndependentBatchFeeModelInput) (limit : Nat) (maxBaseFee : Option Nat) :
    ∃ baseFee gasPerPubdata adjusted,
      deriveBaseFeeAndGasPerPubdata (.pubdataIndependent input) vmVersion =
        some (baseFee, gasPerPubdata) ∧
      DerivedFee (getMaxGasPerPubdataByte vmVersion).toNat input baseFee.toNat gasPerPubdata.toNat ∧
      adjustPubdataPriceForTx (.pubdataIndependent input) limit maxBaseFee vmVersion =
        some (.pubdataIndependent adjusted) ∧
      (Fits (getMaxGasPerPubdataByte vmVersion).toNat limit (maxBaseFee.getD U256_MAX)
          baseFee.toNat gasPerPubdata.toNat → adjusted = input) ∧
      (¬ Fits (getMaxGasPerPubdataByte vmVersion).toNat limit (maxBaseFee.getD U256_MAX)
          baseFee.toNat gasPerPubdata.toNat →
        AdjustedFee vmVersion limit (maxBaseFee.getD U256_MAX) input adjusted) := by
  obtain ⟨baseFee, gasPerPubdata, derived, promises⟩ :=
    deriveBaseFeeAndGasPerPubdata_derivedFee (.pubdataIndependent input) vmVersion
  rw [BatchFeeInput.intoPubdataIndependent_pubdataIndependent] at promises
  by_cases fits : Fits (getMaxGasPerPubdataByte vmVersion).toNat limit (maxBaseFee.getD U256_MAX)
    baseFee.toNat gasPerPubdata.toNat
  · exact ⟨baseFee, gasPerPubdata, input, derived, promises,
      adjustPubdataPriceForTx_of_fits derived limit maxBaseFee fits, fun _ => rfl,
      fun notFits => absurd fits notFits⟩
  refine ⟨baseFee, gasPerPubdata, _, derived, promises,
    adjustPubdataPriceForTx_of_not_fits derived promises limit maxBaseFee fits,
    fun fits' => absurd fits' fits, fun _ => ?_⟩
  have fairFits : min input.fairL2GasPrice.toNat (maxBaseFee.getD U256_MAX) ≤ U64_MAX :=
    (Nat.min_le_left _ _).trans (toNat_le_U64_MAX _)
  have lowered := adjustedPubdataPrice_le promises (maxBaseFee.getD U256_MAX)
    (min limit (getMaxGasPerPubdataByte vmVersion).toNat)
  have pubdataFits := lowered.trans (toNat_le_U64_MAX _)
  exact ⟨rfl, toNat_ofNat_of_le fairFits, by rw [toNat_ofNat_of_le pubdataFits]; exact lowered,
    derive_adjusted_fits vmVersion input rfl (Nat.min_le_left _ _) fairFits pubdataFits⟩

end ZksyncEra.Multivm
