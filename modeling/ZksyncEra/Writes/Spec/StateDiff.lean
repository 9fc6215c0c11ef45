import ZksyncEra.Writes.StateDiff
import ZksyncEra.Writes.Spec.Compression

/-!
The layout of compressed state diffs (`compress_state_diffs`).

With distinct `(address, key)` pairs, the stable sort of the source leaves the records in the
one strictly increasing order there is (`mergeSort_sortKeyLe`). Every record then compresses
without a panic once its enumeration index fits in a `u32`, the initial writes go first, and the
header's count and length fields are exact while they fit in their 2 and 3 bytes.
-/

namespace ZksyncEra.Writes

open ZksyncEra.MerkleTree BigEndian

/-- The compressed value `compress_with_best_strategy` gives for a record. -/
def bestCompression (r : StateDiffRecord) : List UInt8 :=
  (compressWithBestStrategy r.initialValue r.finalValue).getD []

theorem compressWithBestStrategy_eq_bestCompression (r : StateDiffRecord) :
    compressWithBestStrategy r.initialValue r.finalValue = some (bestCompression r) := by
  obtain ⟨m, rest, compressed, -⟩ := compressWithBestStrategy_decodable r.initialValue r.finalValue
  simp [bestCompression, compressed]

namespace StateDiffRecord

/-- Records in strictly increasing `(address, key)` order. -/
def keyLt (a b : StateDiffRecord) : Prop :=
  a.address.toNat < b.address.toNat ∨
    (a.address.toNat = b.address.toNat ∧ a.key.toNat < b.key.toNat)

/-- An initial write publishes its derived key, a repeated write its 4-byte index. -/
theorem compress_eq (r : StateDiffRecord) (index : r.enumerationIndex ≤ U32_MAX) :
    r.compress = some ((if r.enumerationIndex = 0 then r.derivedKey.toList
      else encode 4 r.enumerationIndex) ++ bestCompression r) := by
  unfold compress
  rw [compressWithBestStrategy_eq_bestCompression]
  cases initial : r.enumerationIndex with
  | zero => simp
  | succ n =>
    rw [initial] at index
    simp [index]

end StateDiffRecord

open StateDiffRecord

/-! ### The order of the records -/

/-- `(address, key)` order is a total preorder, as the stable sort needs. -/
theorem sortKeyLe_trans (a b c : StateDiffRecord) (ab : sortKeyLe a b = true)
    (bc : sortKeyLe b c = true) : sortKeyLe a c = true := by
  simp only [sortKeyLe, Bool.or_eq_true, decide_eq_true_eq, Bool.and_eq_true, beq_iff_eq] at *
  omega

theorem sortKeyLe_total (a b : StateDiffRecord) : (sortKeyLe a b || sortKeyLe b a) = true := by
  simp only [sortKeyLe, Bool.or_eq_true, decide_eq_true_eq, Bool.and_eq_true, beq_iff_eq]
  omega

/-- Two records with different `(address, key)` pairs in `(address, key)` order are strictly
ordered. -/
theorem keyLt_of_sortKeyLe {a b : StateDiffRecord} (le : sortKeyLe a b = true)
    (differ : (a.address, a.key) ≠ (b.address, b.key)) : keyLt a b := by
  simp only [sortKeyLe, Bool.or_eq_true, decide_eq_true_eq, Bool.and_eq_true, beq_iff_eq] at le
  have apart : a.address.toNat ≠ b.address.toNat ∨ a.key.toNat ≠ b.key.toNat := by
    by_contra same
    simp only [not_or, not_not] at same
    exact differ (by rw [BitVec.toNat_inj.mp same.1, BitVec.toNat_inj.mp same.2])
  unfold keyLt
  omega

/-- Sorting records whose `(address, key)` pairs differ gives their strictly increasing order. -/
theorem mergeSort_sortKeyLe {D S : List StateDiffRecord} (perm : S.Perm D)
    (sorted : S.Pairwise keyLt) : D.mergeSort sortKeyLe = S := by
  have distinct : S.Pairwise fun a b => (a.address, a.key) ≠ (b.address, b.key) := by
    refine sorted.imp fun {a b} lt same => ?_
    simp only [Prod.mk.injEq] at same
    unfold keyLt at lt
    rw [same.1, same.2] at lt
    omega
  have sortedPerm : (D.mergeSort sortKeyLe).Perm S := (List.mergeSort_perm D _).trans perm.symm
  have distinctSorted := sortedPerm.symm.pairwise_iff (fun differ => Ne.symm differ) |>.mp distinct
  have strict : (D.mergeSort sortKeyLe).Pairwise keyLt :=
    ((List.pairwise_mergeSort sortKeyLe_trans sortKeyLe_total D).and distinctSorted).imp
      fun ⟨le, differ⟩ => keyLt_of_sortKeyLe le differ
  refine List.Perm.eq_of_pairwise (fun a b _ _ ab ba => ?_) strict sorted sortedPerm
  unfold keyLt at ab ba
  omega

/-! ### The body -/

/-- The loop of `compress_state_diffs` over records whose indices fit in a `u32`. -/
theorem extendCompressed_eq (res : List UInt8) (S : List StateDiffRecord)
    (indices : ∀ r ∈ S, r.enumerationIndex ≤ U32_MAX) :
    extendCompressed res S = some (res ++ S.flatMap fun r =>
      (if r.enumerationIndex = 0 then r.derivedKey.toList else encode 4 r.enumerationIndex) ++
        bestCompression r) := by
  induction S generalizing res with
  | nil => simp [extendCompressed]
  | cons r rest ih =>
    let published := (if r.enumerationIndex = 0 then r.derivedKey.toList
      else encode 4 r.enumerationIndex) ++ bestCompression r
    have step : r.compress = some published := compress_eq r (indices r List.mem_cons_self)
    have tail := ih (res ++ published) (fun s member => indices s (List.mem_cons_of_mem r member))
    calc extendCompressed res (r :: rest) = extendCompressed (res ++ published) rest := by
          rw [extendCompressed, List.foldlM_cons, step]
          rfl
      _ = _ := by rw [tail, List.flatMap_cons, List.append_assoc]

/-- The partition of the records into initial and repeated writes. -/
theorem partition_enumerationIndex (S : List StateDiffRecord) :
    S.partition (·.enumerationIndex == 0) =
      (S.filter (·.enumerationIndex = 0), S.filter (·.enumerationIndex ≠ 0)) := by
  rw [List.partition_eq_filter_filter, Prod.mk.injEq]
  constructor <;> apply List.filter_congr <;> intro r _ <;> simp [beq_eq_decide]

/-- The body for records `S` in `(address, key)` order: the count of initial writes in 2 bytes,
each initial write's derived key and each repeated write's 4-byte index, each followed by its
compressed value. -/
def expectedBody (S : List StateDiffRecord) : List UInt8 :=
  let initialWrites := S.filter (·.enumerationIndex = 0)
  let repeatedWrites := S.filter (·.enumerationIndex ≠ 0)
  encode 2 initialWrites.length ++
    initialWrites.flatMap (fun r => r.derivedKey.toList ++ bestCompression r) ++
    repeatedWrites.flatMap (fun r => encode 4 r.enumerationIndex ++ bestCompression r)

/-- A compressed value takes at most 33 bytes: the metadata byte and at most 32 bytes of value. -/
theorem length_bestCompression_le (r : StateDiffRecord) : (bestCompression r).length ≤ 33 := by
  obtain ⟨m, rest, compressed, layout⟩ :=
    compressWithBestStrategy_decodable r.initialValue r.finalValue
  rw [bestCompression, compressed, Option.getD_some, List.length_cons]
  rcases layout with ⟨-, -, full, -⟩ | ⟨-, short, sized, -⟩ <;> omega

/-- Records laid out with at most 65 bytes each. -/
theorem length_flatMap_records_le {f : StateDiffRecord → List UInt8} (bound : ∀ r, (f r).length ≤ 65)
    (L : List StateDiffRecord) : (L.flatMap f).length ≤ 65 * L.length := by
  induction L with
  | nil => simp
  | cons r L ih =>
    rw [List.flatMap_cons, List.length_append, List.length_cons]
    have := bound r
    omega

/-- After its count, the body takes at most 65 bytes a record: a derived key or an index, and a
compressed value. -/
theorem length_expectedBody_le (S : List StateDiffRecord) :
    (expectedBody S).length ≤ 2 + 65 * S.length := by
  have initial := length_flatMap_records_le (f := fun r => r.derivedKey.toList ++ bestCompression r)
    (fun r => by
      simp only [List.length_append, Vector.length_toList]
      have := length_bestCompression_le r
      omega)
    (S.filter (·.enumerationIndex = 0))
  have repeated := length_flatMap_records_le (f := fun r => encode 4 r.enumerationIndex ++ bestCompression r)
    (fun r => by
      simp only [List.length_append, length_encode]
      have := length_bestCompression_le r
      omega)
    (S.filter (·.enumerationIndex ≠ 0))
  -- every record is an initial or a repeated write
  have split := List.length_eq_length_filter_add (l := S) (·.enumerationIndex = 0)
  have repeatedFilter : S.filter (fun r => !decide (r.enumerationIndex = 0)) =
      S.filter (·.enumerationIndex ≠ 0) := List.filter_congr fun r _ => by simp
  rw [repeatedFilter] at split
  simp only [expectedBody, List.length_append, length_encode]
  omega

/-- The header holds the version, the 3 low bytes of the body's length and the index width. -/
theorem prependHeader_eq (body : List UInt8) :
    prependHeader body = [1] ++ encode 3 body.length ++ [4] ++ body := by
  rw [prependHeader, drop_encode 1 3]
  rfl

/-- `compress_state_diffs` of records with distinct `(address, key)` pairs and indices that fit
in a `u32`, where `S` is the same records in increasing `(address, key)` order: the header then
the body, whose count and length fields read back exactly while they fit. -/
theorem compressStateDiffs_eq (D S : List StateDiffRecord) (perm : S.Perm D)
    (sorted : S.Pairwise keyLt) (indices : ∀ r ∈ D, r.enumerationIndex ≤ U32_MAX)
    (fewInitial : (D.filter (·.enumerationIndex = 0)).length < 2 ^ 16)
    (short : (expectedBody S).length < 2 ^ 24) :
    compressStateDiffs D = some ([1] ++ encode 3 (expectedBody S).length ++ [4] ++ expectedBody S) ∧
      decode (encode 3 (expectedBody S).length) = (expectedBody S).length ∧
      decode (encode 2 (S.filter (·.enumerationIndex = 0)).length) =
        (D.filter (·.enumerationIndex = 0)).length := by
  have sameCount : (S.filter (·.enumerationIndex = 0)).length =
      (D.filter (·.enumerationIndex = 0)).length := (perm.filter _).length_eq
  have indicesS : ∀ r ∈ S, r.enumerationIndex ≤ U32_MAX := fun r member => indices r (perm.mem_iff.mp member)
  refine ⟨?_, decode_encode_of_lt (by simpa using short),
    by rw [decode_encode_of_lt (by rw [sameCount]; simpa using fewInitial), sameCount]⟩
  -- the initial writes and the repeated writes each keep their kind in the loop's prefix
  have initialPart := extendCompressed_eq (encode 2 (S.filter (·.enumerationIndex = 0)).length)
    (S.filter (·.enumerationIndex = 0)) (fun r member => indicesS r (List.mem_filter.mp member).1)
  have initialKeys : ∀ r ∈ S.filter (·.enumerationIndex = 0),
      (if r.enumerationIndex = 0 then r.derivedKey.toList else encode 4 r.enumerationIndex) =
        r.derivedKey.toList := by
    intro r member
    have zero : r.enumerationIndex = 0 := by simpa using (List.mem_filter.mp member).2
    simp [zero]
  have initialBytes := List.flatMap_congr (l := S.filter (·.enumerationIndex = 0))
    fun r member => congrArg (· ++ bestCompression r) (initialKeys r member)
  rw [initialBytes] at initialPart
  have repeatedPart := extendCompressed_eq
    (encode 2 (S.filter (·.enumerationIndex = 0)).length ++
      (S.filter (·.enumerationIndex = 0)).flatMap fun r => r.derivedKey.toList ++ bestCompression r)
    (S.filter (·.enumerationIndex ≠ 0)) (fun r member => indicesS r (List.mem_filter.mp member).1)
  have repeatedIndices : ∀ r ∈ S.filter (·.enumerationIndex ≠ 0),
      (if r.enumerationIndex = 0 then r.derivedKey.toList else encode 4 r.enumerationIndex) =
        encode 4 r.enumerationIndex := by
    intro r member
    have nonzero : r.enumerationIndex ≠ 0 := by simpa using (List.mem_filter.mp member).2
    simp [nonzero]
  have repeatedBytes := List.flatMap_congr (l := S.filter (·.enumerationIndex ≠ 0))
    fun r member => congrArg (· ++ bestCompression r) (repeatedIndices r member)
  rw [repeatedBytes] at repeatedPart
  rw [compressStateDiffs, mergeSort_sortKeyLe perm sorted, partition_enumerationIndex]
  simp only [initialPart, Option.bind_eq_bind, Option.bind_some, repeatedPart, prependHeader_eq,
    expectedBody, Option.pure_def]

/-! ### Decodability -/

/-- State-diff compression is decodable. A compressed value names its operation and byte count
in its metadata byte, and those bytes restore the new value from the previous one; the byte count
is the least candidate size of at most 30, and the full value follows a zero byte only when there
is none. The compressed diffs of distinct records with `u32` indices are the header and the body
of the records in `(address, key)` order, with exact count and length fields while they fit. -/
theorem stateDiffCompression_decodable :
    (∀ prev new : U256, ∃ m rest, compressWithBestStrategy prev new = some (m :: rest) ∧
      ((m &&& 7 = 0 ∧ m = 0 ∧ rest.length = 32 ∧ decode rest = new.toNat ∧
          (candidateSizes prev new).filter (· ≤ 30) = []) ∨
        ((m &&& 7 = 1 ∨ m &&& 7 = 2 ∨ m &&& 7 = 3) ∧ (m >>> 3).toNat ≤ 30 ∧
          rest.length = (m >>> 3).toNat ∧
          (m &&& 7 = 1 → new = prev + BitVec.ofNat 256 (decode rest)) ∧
          (m &&& 7 = 2 → new = prev - BitVec.ofNat 256 (decode rest)) ∧
          (m &&& 7 = 3 → new = BitVec.ofNat 256 (decode rest)) ∧
          ((candidateSizes prev new).filter (· ≤ 30)).min? = some rest.length))) ∧
    (∀ D S : List StateDiffRecord, S.Perm D → S.Pairwise keyLt →
      (∀ r ∈ D, r.enumerationIndex ≤ U32_MAX) →
      (D.filter (·.enumerationIndex = 0)).length < 2 ^ 16 →
      (expectedBody S).length < 2 ^ 24 →
      compressStateDiffs D = some ([1] ++ encode 3 (expectedBody S).length ++ [4] ++ expectedBody S) ∧
        decode (encode 3 (expectedBody S).length) = (expectedBody S).length ∧
        decode (encode 2 (S.filter (·.enumerationIndex = 0)).length) =
          (D.filter (·.enumerationIndex = 0)).length) :=
  ⟨compressWithBestStrategy_decodable, compressStateDiffs_eq⟩

/-- An initial write at address 2, then a repeated write (index 5) at address 1. -/
def initialThenRepeated : List StateDiffRecord :=
  [⟨2, 7, Vector.replicate 32 9, 0, 0, 300⟩, ⟨1, 7, Vector.replicate 32 8, 5, 1000, 999⟩]

/-- The two writes are sorted by address, and the initial one is published first with its derived
key, the repeated one after it with its index. -/
theorem stateDiffCompression_decodable_initialThenRepeated :
    compressStateDiffs initialThenRepeated =
        some ([1] ++ encode 3 (expectedBody initialThenRepeated.reverse).length ++ [4] ++
          expectedBody initialThenRepeated.reverse) ∧
      decode (encode 3 (expectedBody initialThenRepeated.reverse).length) =
        (expectedBody initialThenRepeated.reverse).length ∧
      decode (encode 2 (initialThenRepeated.reverse.filter (·.enumerationIndex = 0)).length) =
        (initialThenRepeated.filter (·.enumerationIndex = 0)).length :=
  stateDiffCompression_decodable.2 initialThenRepeated initialThenRepeated.reverse
    (List.reverse_perm _) (List.pairwise_pair.mpr (Or.inl (by decide))) (by decide) (by decide)
    (Nat.lt_of_le_of_lt (length_expectedBody_le _) (by decide))

end ZksyncEra.Writes
