import ZksyncEra.Writes.Compression

/-!
What a compressed value says (`compress_with_best_strategy`).

Each pass that accepts its diff writes the metadata byte of its operation and byte count, then
the diff in exactly that many bytes, since the byte count is the diff's bit length rounded up
(`compressExtended_pass`). So the metadata byte alone tells how many bytes follow and how to
combine them with the previous value. The chosen encoding is one of the accepted passes, and no
accepted pass is shorter (`min_by_key`), so its length is the least accepted byte count; when no
pass accepts, the full value follows a zero byte.
-/

namespace ZksyncEra.Writes

open ZksyncEra.MerkleTree BigEndian CompressionMode

/-- The big-endian bytes of a word. -/
theorem toList_toBigEndian (value : U256) : value.toBigEndian.toList = encode 32 value.toNat := by
  apply List.ext_getElem (by simp)
  intro i inWord inEncoding
  simp [U256.toBigEndian, getElem_encode, Nat.shiftRight_eq_div_pow, Nat.pow_mul]

/-- The metadata byte keeps the byte count and the operation apart. -/
theorem metadataByte_fields : ∀ size ≤ 30, ∀ op < 8,
    metadataByte size op &&& 7 = UInt8.ofNat op ∧ metadataByte size op >>> 3 = UInt8.ofNat size := by
  decide

/-! ### One pass -/

/-- The byte counts of the three strategies: the diffs `new - prev` and `prev - new`, and the new
value, each in whole bytes. -/
def candidateSizes (prev new : U256) : List Nat :=
  [((new - prev).bits + 7) / 8, ((prev - new).bits + 7) / 8, (new.bits + 7) / 8]

/-- The value an operation restores from the previous value and the diff. -/
def restore (op : Nat) (prev diff : U256) : U256 :=
  match op with
  | 1 => prev + diff
  | 2 => prev - diff
  | _ => diff

/-- A pass compresses to its metadata byte and the significant bytes of its diff. -/
theorem compressExtended_pass {mode : CompressionMode} (pass : mode.operationId ≠ 0) :
    mode.compressExtended = mode.getDiffAndSize.map fun (diff, size) =>
      metadataByte size mode.operationId :: encode size diff.toNat := by
  cases mode with
  | byteNone _ => simp [operationId] at pass
  | byteAdd prevValue newValue | byteSub prevValue newValue | byteTransform newValue =>
    cases accepted : getDiffAndSize _ with
    | none => simp [compressExtended, compressValueOnly, accepted]
    | some result =>
      obtain ⟨diff, size⟩ := result
      -- an accepted size is below 31, so the bytes kept are the last `size` of the word
      have small : size ≤ 32 := by
        simp only [getDiffAndSize, diffAndSize] at accepted
        split at accepted <;> simp at accepted
        omega
      have kept : (encode 32 diff.toNat).drop (32 - size) = encode size diff.toNat := by
        rw [show 32 = (32 - size) + size by omega, Nat.add_sub_cancel, drop_encode]
      simp [compressExtended, compressValueOnly, outputSize, accepted, toList_toBigEndian, kept]

/-- Facts about one of the three passes: its operation, and, when it accepts, a byte count of at
most 30 that is its candidate size, a diff that fits in it, and the new value restored. -/
theorem pass_accepts {prev new : U256} {mode : CompressionMode}
    (member : mode ∈ defaultPasses prev new) :
    mode.operationId ∈ [1, 2, 3] ∧
      ∀ diff size, mode.getDiffAndSize = some (diff, size) →
        size ≤ 30 ∧ size ∈ candidateSizes prev new ∧ diff.toNat < 256 ^ size ∧
          restore mode.operationId prev diff = new := by
  have fits : ∀ (d diff : U256) size, diffAndSize d = some (diff, size) →
      diff = d ∧ size = (d.bits + 7) / 8 ∧ size ≤ 30 ∧ diff.toNat < 256 ^ size := by
    intro d diff size accepted
    simp only [diffAndSize] at accepted
    split at accepted
    · cases accepted
    · simp only [Option.some.injEq, Prod.mk.injEq] at accepted
      obtain ⟨rfl, rfl⟩ := accepted
      exact ⟨rfl, rfl, by omega, lt_pow_size_bytes _⟩
  simp only [defaultPasses, List.mem_cons, List.not_mem_nil, or_false] at member
  rcases member with rfl | rfl | rfl
  · refine ⟨by simp [operationId], fun diff size accepted => ?_⟩
    obtain ⟨rfl, rfl, small, bound⟩ := fits _ diff size accepted
    exact ⟨small, by simp [candidateSizes], bound, by simp only [restore, operationId]; bv_omega⟩
  · refine ⟨by simp [operationId], fun diff size accepted => ?_⟩
    obtain ⟨rfl, rfl, small, bound⟩ := fits _ diff size accepted
    exact ⟨small, by simp [candidateSizes], bound, by simp only [restore, operationId]; bv_omega⟩
  · refine ⟨by simp [operationId], fun diff size accepted => ?_⟩
    obtain ⟨rfl, rfl, small, bound⟩ := fits _ diff size accepted
    exact ⟨small, by simp [candidateSizes], bound, by simp [restore, operationId]⟩

/-- Every candidate size of at most 30 bytes is accepted by its pass. -/
theorem candidate_accepted {prev new : U256} {size : Nat}
    (member : size ∈ candidateSizes prev new) (small : size ≤ 30) :
    ∃ mode ∈ defaultPasses prev new, ∃ diff, mode.getDiffAndSize = some (diff, size) := by
  simp only [candidateSizes, List.mem_cons, List.not_mem_nil, or_false] at member
  have accepts : ∀ d : U256, size = (d.bits + 7) / 8 → diffAndSize d = some (d, size) := by
    intro d sized
    simp [diffAndSize, ← sized, show ¬ 31 ≤ size by omega]
  rcases member with sized | sized | sized
  · exact ⟨.byteAdd prev new, by simp [defaultPasses], _, accepts _ sized⟩
  · exact ⟨.byteSub prev new, by simp [defaultPasses], _, accepts _ sized⟩
  · exact ⟨.byteTransform new, by simp [defaultPasses], _, accepts _ sized⟩

/-- The encoding of an accepting pass is among those `compress_with_best_strategy` chooses from. -/
theorem mem_encodings {prev new : U256} {mode : CompressionMode}
    (member : mode ∈ defaultPasses prev new) {diff : U256} {size : Nat}
    (accepted : mode.getDiffAndSize = some (diff, size)) :
    metadataByte size mode.operationId :: encode size diff.toNat ∈
      (defaultPasses prev new).filterMap CompressionMode.compressExtended := by
  have pass : mode.operationId ≠ 0 := by
    have op := (pass_accepts member).1
    simp only [List.mem_cons, List.not_mem_nil, or_false] at op
    omega
  exact List.mem_filterMap.mpr ⟨mode, member, by rw [compressExtended_pass pass, accepted]; rfl⟩

/-! ### The best strategy -/

/-- A compressed value is decodable from its own bytes: either the metadata byte is zero and the
full new value follows, or it names an operation and a byte count of at most 30, that many bytes
follow, and they restore the new value from the previous one. The byte count is the least
candidate size of at most 30, and the full value is written only when there is none. -/
theorem compressWithBestStrategy_decodable (prev new : U256) :
    ∃ m rest, compressWithBestStrategy prev new = some (m :: rest) ∧
      ((m &&& 7 = 0 ∧ m = 0 ∧ rest.length = 32 ∧ decode rest = new.toNat ∧
          (candidateSizes prev new).filter (· ≤ 30) = []) ∨
        ((m &&& 7 = 1 ∨ m &&& 7 = 2 ∨ m &&& 7 = 3) ∧ (m >>> 3).toNat ≤ 30 ∧
          rest.length = (m >>> 3).toNat ∧
          (m &&& 7 = 1 → new = prev + BitVec.ofNat 256 (decode rest)) ∧
          (m &&& 7 = 2 → new = prev - BitVec.ofNat 256 (decode rest)) ∧
          (m &&& 7 = 3 → new = BitVec.ofNat 256 (decode rest)) ∧
          ((candidateSizes prev new).filter (· ≤ 30)).min? = some rest.length)) := by
  cases best : ((defaultPasses prev new).filterMap compressExtended).argmin List.length with
  | none =>
    -- no pass accepts, so every candidate size exceeds 30 bytes
    have empty := List.argmin_eq_none.mp best
    have noneSmall : (candidateSizes prev new).filter (· ≤ 30) = [] := by
      rw [List.filter_eq_nil_iff]
      intro size member small
      obtain ⟨mode, inPasses, diff, accepted⟩ := candidate_accepted member (by simpa using small)
      have encoded := mem_encodings inPasses accepted
      rw [empty] at encoded
      cases encoded
    refine ⟨0, encode 32 new.toNat, ?_, .inl ⟨rfl, rfl, length_encode _ _, ?_, noneSmall⟩⟩
    · simp [compressWithBestStrategy, best, compressExtended, toList_toBigEndian]
    · exact decode_encode_of_lt (by simpa using new.isLt)
  | some chosen =>
    obtain ⟨mode, inPasses, compressed⟩ := List.mem_filterMap.mp (List.argmin_mem best)
    obtain ⟨op, accepts⟩ := pass_accepts inPasses
    simp only [List.mem_cons, List.not_mem_nil, or_false] at op
    rw [compressExtended_pass (by omega)] at compressed
    obtain ⟨⟨diff, size⟩, accepted, rfl⟩ := Option.map_eq_some_iff.mp compressed
    obtain ⟨small, candidate, bound, restored⟩ := accepts diff size accepted
    obtain ⟨opField, sizeField⟩ := metadataByte_fields size small mode.operationId (by omega)
    have decoded : BitVec.ofNat 256 (decode (encode size diff.toNat)) = diff := by
      rw [decode_encode_of_lt bound]
      simp
    -- no accepting pass is shorter than the chosen one
    have least : ∀ other ∈ (candidateSizes prev new).filter (· ≤ 30), size ≤ other := by
      intro other member
      rw [List.mem_filter, decide_eq_true_eq] at member
      obtain ⟨mode', inPasses', diff', accepted'⟩ := candidate_accepted member.1 member.2
      have shorter := List.le_of_mem_argmin (mem_encodings inPasses' accepted') best
      simpa using shorter
    refine ⟨metadataByte size mode.operationId, encode size diff.toNat,
      by simp [compressWithBestStrategy, best], .inr ⟨?_, ?_, ?_, ?_, ?_, ?_, ?_⟩⟩
    · rw [opField]
      rcases op with op | op | op <;> simp [op]
    · rw [sizeField, UInt8.toNat_ofNat_of_lt' (by unfold UInt8.size; omega)]
      exact small
    · rw [sizeField, UInt8.toNat_ofNat_of_lt' (by unfold UInt8.size; omega), length_encode]
    · intro added
      have one : mode.operationId = 1 := by rcases op with op | op | op <;> simp_all
      rw [decoded, ← restored, one]
      rfl
    · intro subtracted
      have two : mode.operationId = 2 := by rcases op with op | op | op <;> simp_all
      rw [decoded, ← restored, two]
      rfl
    · intro replaced
      have three : mode.operationId = 3 := by rcases op with op | op | op <;> simp_all
      rw [decoded, ← restored, three]
      rfl
    · rw [length_encode, List.min?_eq_some_iff]
      exact ⟨List.mem_filter.mpr ⟨candidate, by simpa using small⟩, least⟩

end ZksyncEra.Writes
