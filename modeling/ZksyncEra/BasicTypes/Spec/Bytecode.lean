import ZksyncEra.BasicTypes.Bytecode
import ZksyncEra.Multivm.Spec.Bytecode

/-!
Bytecode hashes record the kind and the length of what they hash, and EVM padding comes off
again.

`pad_evm_bytecode` appends zeros up to the least odd multiple of 32 bytes at or above the
bytecode's length (`padEvmBytecode_eq`, `isLeast_paddedLen`). A hash carries the marker it was
built with, and the two low bytes of the length it was given (`marker_forGenericBytecode`,
`lenInBytes_forGenericBytecode`). For an EraVM bytecode that passes validation the length in
words is below `2 ^ 16`, so the length reads back exactly. For an EVM bytecode the field holds
bytes, and the length reads back only below `2 ^ 16` bytes, while validation admits padded
bytecodes of up to `(2 ^ 16 - 1) * 32` bytes: a longer one gets a hash whose length is the one
modulo `2 ^ 16`, and its padded bytecode no longer trims back to it
(`forRawEvmBytecode_sixteenBitLength`).
-/

namespace ZksyncEra.BasicTypes

open BigEndian Multivm

/-- The length `pad_evm_bytecode` pads `n` bytes to: whole 32-byte words, then an odd number of
them. -/
def paddedLen (n : Nat) : Nat :=
  let words := (n + 31) / 32
  32 * (if words % 2 = 1 then words else words + 1)

/-! ### Padding -/

theorem le_paddedLen (n : Nat) : n ≤ paddedLen n := by
  simp only [paddedLen]
  split_ifs <;> omega

theorem paddedLen_words (n : Nat) : paddedLen n % 32 = 0 ∧ paddedLen n / 32 % 2 = 1 := by
  simp only [paddedLen]
  split_ifs <;> omega

/-- The padded length is the least odd multiple of 32 at or above the length. -/
theorem isLeast_paddedLen (n : Nat) :
    IsLeast {m | ∃ j, m = 32 * (2 * j + 1) ∧ n ≤ m} (paddedLen n) := by
  refine ⟨⟨paddedLen n / 64, ?_, le_paddedLen n⟩, ?_⟩
  · have words := paddedLen_words n
    omega
  · rintro m ⟨j, rfl, above⟩
    simp only [paddedLen]
    split_ifs <;> omega

/-- Padding to the word boundary appends the zeros up to the next multiple of 32. -/
theorem alignWords_eq (code : List UInt8) :
    (if code.length % 32 ≠ 0 then code ++ List.replicate (32 - code.length % 32) 0 else code) =
      code ++ List.replicate (32 * ((code.length + 31) / 32) - code.length) 0 := by
  split_ifs with unaligned
  · congr 2
    omega
  · rw [show 32 * ((code.length + 31) / 32) - code.length = 0 by omega, List.replicate_zero,
      List.append_nil]

theorem padEvmBytecode_eq (deployedBytecode : List UInt8) :
    padEvmBytecode deployedBytecode =
      some (deployedBytecode ++
        List.replicate (paddedLen deployedBytecode.length - deployedBytecode.length) 0) := by
  simp only [padEvmBytecode]
  rw [alignWords_eq]
  generalize aligned : 32 * ((deployedBytecode.length + 31) / 32) - deployedBytecode.length = k
  have alignedWords : (deployedBytecode.length + k) % 32 = 0 := by omega
  simp only [List.length_append, List.length_replicate, alignedWords, ne_eq, not_true_eq_false,
    if_false]
  -- then a word of zeros where the number of words is even
  by_cases odd : (deployedBytecode.length + k) / 32 % 2 = 1
  · simp only [odd, not_true_eq_false, if_false, List.length_append, List.length_replicate,
      Option.pure_def]
    congr 3
    simp only [paddedLen]
    split_ifs <;> omega
  · simp only [odd, not_false_eq_true, if_true, List.length_append, List.length_replicate,
      List.append_assoc, List.replicate_append_replicate]
    have grown : (deployedBytecode.length + (k + 32)) / 32 % 2 = 1 := by omega
    simp only [grown, not_true_eq_false, if_false, Option.pure_def]
    congr 3
    simp only [paddedLen]
    split_ifs <;> omega

/-- A padded bytecode passes validation exactly when the bytecode is at most
`MAX_BYTECODE_LENGTH_BYTES` long. -/
theorem validateBytecode_pad_iff (deployedBytecode : List UInt8) :
    validateBytecode (deployedBytecode ++
        List.replicate (paddedLen deployedBytecode.length - deployedBytecode.length) 0) = .ok () ↔
      deployedBytecode.length ≤ MAX_BYTECODE_LENGTH_BYTES := by
  have longer := le_paddedLen deployedBytecode.length
  have words := paddedLen_words deployedBytecode.length
  have least := (isLeast_paddedLen deployedBytecode.length).2
  rw [validateBytecode_eq_ok_iff, List.length_append, List.length_replicate,
    show deployedBytecode.length + (paddedLen deployedBytecode.length -
      deployedBytecode.length) = paddedLen deployedBytecode.length by omega]
  constructor
  · rintro ⟨short, -⟩
    omega
  · intro short
    -- the largest valid length is itself an odd number of words
    have atMost := least ⟨32767, rfl, by simpa [MAX_BYTECODE_LENGTH_BYTES,
      MAX_BYTECODE_LENGTH_IN_WORDS] using short⟩
    exact ⟨by simpa [MAX_BYTECODE_LENGTH_BYTES, MAX_BYTECODE_LENGTH_IN_WORDS] using atMost, words⟩

/-! ### Hashes -/

/-- The length bytes as written, read back as `u16::from_be_bytes` reads them. -/
theorem decode_getElem_encode_two (n : Nat) :
    decode [(encode 2 n)[0], (encode 2 n)[1]] = n % 2 ^ 16 := by
  have pair : [(encode 2 n)[0], (encode 2 n)[1]] = encode 2 n := by simp [encode]
  rw [pair, decode_encode]
  rfl

section Hash

variable (sha256 : List UInt8 → Vector UInt8 32)

/-- A hash carries the marker it was built with, and the two low bytes of the length it was
given, in words for EraVM and in bytes for EVM. -/
theorem forGenericBytecode_spec (kind : BytecodeMarker) {bytecode : List UInt8} (n : Nat)
    (valid : validateBytecode bytecode = .ok ()) :
    ∃ hash, forGenericBytecode sha256 kind bytecode n = some hash ∧ hash.marker = kind ∧
      hash.lenInBytes = match kind with
        | .eraVm => n / 32 % 2 ^ 16 * 32
        | .evm => n % 2 ^ 16 := by
  rw [forGenericBytecode.eq_def, valid]
  refine ⟨_, rfl, ?_, ?_⟩
  · cases kind <;> simp [BytecodeHash.marker, BytecodeMarker.toUInt8]
  · cases kind <;> simp [BytecodeHash.lenInBytes, BytecodeHash.marker, BytecodeMarker.toUInt8,
      decode_getElem_encode_two]

/-- An EraVM hash records the bytecode's length exactly: a valid bytecode has fewer than `2 ^ 16`
words. -/
theorem forBytecode_spec {bytecode : List UInt8} (valid : validateBytecode bytecode = .ok ()) :
    ∃ hash, forBytecode sha256 bytecode = some hash ∧ hash.marker = .eraVm ∧
      hash.lenInBytes = bytecode.length := by
  obtain ⟨short, aligned, -⟩ := (validateBytecode_eq_ok_iff bytecode).mp valid
  obtain ⟨hash, built, marker, len⟩ :=
    forGenericBytecode_spec sha256 .eraVm bytecode.length valid
  refine ⟨hash, built, marker, ?_⟩
  dsimp only at len
  rw [len]
  simp only [MAX_BYTECODE_LENGTH_BYTES, MAX_BYTECODE_LENGTH_IN_WORDS] at short
  omega

/-- An EVM hash records the raw length modulo `2 ^ 16`, for every bytecode that pads to a valid
one. -/
theorem forRawEvmBytecode_spec {bytecode : List UInt8}
    (short : bytecode.length ≤ MAX_BYTECODE_LENGTH_BYTES) :
    ∃ hash, forRawEvmBytecode sha256 bytecode = some hash ∧ hash.marker = .evm ∧
      hash.lenInBytes = bytecode.length % 2 ^ 16 := by
  obtain ⟨hash, built, marker, len⟩ := forGenericBytecode_spec sha256 .evm bytecode.length
    ((validateBytecode_pad_iff bytecode).mpr short)
  refine ⟨hash, ?_, marker, len⟩
  rw [forRawEvmBytecode, padEvmBytecode_eq]
  exact built

end Hash

/-! ### Trimming -/

section Trim

variable {hash : BytecodeHash}

/-- Past its checks, trimming splits the bytecode at the hash's length and keeps the front, if
the rest is zeros. -/
theorem trimPaddedEvmBytecode_of_evm {raw : List UInt8} (evm : hash.marker = .evm)
    (valid : validateBytecode raw = .ok ()) (within : hash.lenInBytes ≤ raw.length) :
    trimPaddedEvmBytecode hash raw =
      if (raw.drop hash.lenInBytes).all (· == 0) then .ok (raw.take hash.lenInBytes)
      else .error "bytecode padding contains non-zero bytes" := by
  simp only [trimPaddedEvmBytecode, evm, valid, ne_eq, not_true_eq_false, if_false]
  rw [if_neg (Nat.not_lt.mpr within)]
  split_ifs <;> rfl

/-- A zero-padded bytecode trims back to the bytecode when the hash records its length. -/
theorem trimPaddedEvmBytecode_padded {bytecode : List UInt8} {zeros : Nat}
    (evm : hash.marker = .evm) (valid : validateBytecode (bytecode ++ List.replicate zeros 0) = .ok ())
    (len : hash.lenInBytes = bytecode.length) :
    trimPaddedEvmBytecode hash (bytecode ++ List.replicate zeros 0) = .ok bytecode := by
  have within : hash.lenInBytes ≤ (bytecode ++ List.replicate zeros 0).length := by
    rw [len, List.length_append]
    exact Nat.le_add_right _ _
  have padding : ((bytecode ++ List.replicate zeros 0).drop hash.lenInBytes).all (· == 0) := by
    rw [len, List.drop_left]
    simp
  rw [trimPaddedEvmBytecode_of_evm evm valid within, if_pos padding, len, List.take_left]

end Trim

/-! ### Round trips -/

/-- Hashing and padding round-trip wherever the two-byte length field holds the length: padding
appends zeros up to the least odd multiple of 32 at or above the length; an EVM bytecode of fewer
than `2 ^ 16` bytes pads to a valid bytecode, gets a hash marked `Evm` with its raw length, and
its padded bytecode trims back to it; an EraVM bytecode that passes validation gets a hash marked
`EraVm` with its length, and trims to itself. -/
theorem bytecodeHash_padding_roundTrip (sha256 : List UInt8 → Vector UInt8 32) :
    (∀ bytecode : List UInt8, ∃ zeros,
      padEvmBytecode bytecode = some (bytecode ++ List.replicate zeros 0) ∧
        IsLeast {m | ∃ j, m = 32 * (2 * j + 1) ∧ bytecode.length ≤ m}
          (bytecode.length + zeros)) ∧
    (∀ bytecode padded : List UInt8, bytecode.length < 2 ^ 16 →
      padEvmBytecode bytecode = some padded →
        validateBytecode padded = .ok () ∧
          ∃ hash, forRawEvmBytecode sha256 bytecode = some hash ∧ hash.marker = .evm ∧
            hash.lenInBytes = bytecode.length ∧
            trimPaddedEvmBytecode hash padded = .ok bytecode) ∧
    (∀ bytecode : List UInt8, validateBytecode bytecode = .ok () →
      ∃ hash, forBytecode sha256 bytecode = some hash ∧ hash.marker = .eraVm ∧
        hash.lenInBytes = bytecode.length ∧ trimBytecode hash bytecode = .ok bytecode) := by
  refine ⟨?padding, ?evm, ?eraVm⟩
  case padding =>
    intro bytecode
    refine ⟨_, padEvmBytecode_eq bytecode, ?_⟩
    rw [Nat.add_sub_cancel' (le_paddedLen _)]
    exact isLeast_paddedLen _
  case evm =>
    intro bytecode padded short padding
    rw [padEvmBytecode_eq, Option.some.injEq] at padding
    subst padding
    have fits : bytecode.length ≤ MAX_BYTECODE_LENGTH_BYTES := by
      simp only [MAX_BYTECODE_LENGTH_BYTES, MAX_BYTECODE_LENGTH_IN_WORDS]
      omega
    have valid := (validateBytecode_pad_iff bytecode).mpr fits
    obtain ⟨hash, built, marker, len⟩ := forRawEvmBytecode_spec sha256 fits
    rw [Nat.mod_eq_of_lt short] at len
    exact ⟨valid, hash, built, marker, len, trimPaddedEvmBytecode_padded marker valid len⟩
  case eraVm =>
    intro bytecode valid
    obtain ⟨hash, built, marker, len⟩ := forBytecode_spec sha256 valid
    refine ⟨hash, built, marker, len, ?_⟩
    rw [trimBytecode, marker]
    rfl

theorem bytecodeHash_padding_roundTrip_small :
    (∃ hash, forRawEvmBytecode (fun _ => Vector.replicate 32 0) [0x60, 0x80] = some hash ∧
      hash.marker = .evm ∧ hash.lenInBytes = 2 ∧
      trimPaddedEvmBytecode hash ([0x60, 0x80] ++ List.replicate 30 0) = .ok [0x60, 0x80]) ∧
    (∃ hash, forBytecode (fun _ => Vector.replicate 32 0) (List.replicate 32 0) = some hash ∧
      hash.marker = .eraVm ∧ hash.lenInBytes = 32 ∧
      trimBytecode hash (List.replicate 32 0) = .ok (List.replicate 32 0)) :=
  ⟨((bytecodeHash_padding_roundTrip _).2.1 [0x60, 0x80] _ (by decide) rfl).2,
    (bytecodeHash_padding_roundTrip _).2.2 _ rfl⟩

/-- An EVM bytecode of `2 ^ 16` bytes pads to a valid bytecode, but its hash records the length
`0`, and its own padded bytecode does not trim back: the length `2 ^ 16` does not fit the two
bytes. This holds whatever the digest. -/
theorem trimPaddedEvmBytecode_replicate_sixteenBitLength (sha256 : List UInt8 → Vector UInt8 32) :
    padEvmBytecode (List.replicate (2 ^ 16) 1) =
        some (List.replicate (2 ^ 16) 1 ++ List.replicate 32 0) ∧
      validateBytecode (List.replicate (2 ^ 16) 1 ++ List.replicate 32 0) = .ok () ∧
      ∃ hash, forRawEvmBytecode sha256 (List.replicate (2 ^ 16) 1) = some hash ∧
        hash.lenInBytes = 0 ∧
        trimPaddedEvmBytecode hash (List.replicate (2 ^ 16) 1 ++ List.replicate 32 0) =
          .error "bytecode padding contains non-zero bytes" := by
  have fits : (List.replicate (2 ^ 16) (1 : UInt8)).length ≤ MAX_BYTECODE_LENGTH_BYTES := by
    rw [List.length_replicate]
    decide
  have zeros : paddedLen (List.replicate (2 ^ 16) (1 : UInt8)).length -
      (List.replicate (2 ^ 16) (1 : UInt8)).length = 32 := by
    rw [List.length_replicate]
    decide
  have padding := padEvmBytecode_eq (List.replicate (2 ^ 16) 1)
  have valid := (validateBytecode_pad_iff (List.replicate (2 ^ 16) 1)).mpr fits
  rw [zeros] at padding valid
  obtain ⟨hash, built, marker, len⟩ := forRawEvmBytecode_spec sha256 fits
  rw [List.length_replicate, Nat.mod_self] at len
  -- the whole padded bytecode is taken for padding, and it starts with nonzero bytes
  have nonzero : ¬ ((List.replicate (2 ^ 16) (1 : UInt8) ++ List.replicate 32 0).drop
      hash.lenInBytes).all (· == 0) := by
    rw [len, List.drop_zero, List.all_append, List.all_replicate, if_neg (by decide)]
    decide
  refine ⟨padding, valid, hash, built, len, ?_⟩
  rw [trimPaddedEvmBytecode_of_evm marker valid (by rw [len]; exact Nat.zero_le _),
    if_neg nonzero]

theorem forRawEvmBytecode_sixteenBitLength :
    padEvmBytecode (List.replicate (2 ^ 16) 1) =
        some (List.replicate (2 ^ 16) 1 ++ List.replicate 32 0) ∧
      validateBytecode (List.replicate (2 ^ 16) 1 ++ List.replicate 32 0) = .ok () ∧
      ∃ hash, forRawEvmBytecode (fun _ => Vector.replicate 32 0) (List.replicate (2 ^ 16) 1) =
          some hash ∧
        hash.lenInBytes = 0 ∧
        trimPaddedEvmBytecode hash (List.replicate (2 ^ 16) 1 ++ List.replicate 32 0) =
          .error "bytecode padding contains non-zero bytes" :=
  trimPaddedEvmBytecode_replicate_sixteenBitLength _

end ZksyncEra.BasicTypes
