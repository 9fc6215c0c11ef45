import ZksyncEra.Multivm.Bytecode
import ZksyncEra.Lib.Lists

/-!
Bytecode compression is a dictionary code.

The statistic maps each distinct chunk to its number of occurrences and its first position. Two
chunks never share a first position, so sorting by the pair orders the entries the same way
whatever order the statistic is iterated in. Read backwards, the sorted entries are the
dictionary, most frequent first; each chunk gets its rank as index, and sorting the dictionary
entries by index writes the chunks in that order. Decoding the two-byte indices against the
dictionary then gives every chunk back.

`IsDictionaryCode` states what a dictionary code of a bytecode is, apart from the bytes it is
written in; the decoder inverts every one of them, and `compress_to_bytes` writes one whenever the
dictionary fits.
-/

namespace ZksyncEra.Multivm

open BigEndian

/-! ### The order of the sort -/

theorem lexLe_trans (a b c : Nat × Nat) (first : lexLe a b = true) (second : lexLe b c = true) :
    lexLe a c = true := by
  simp only [lexLe, Bool.or_eq_true, Bool.and_eq_true, decide_eq_true_eq, beq_iff_eq] at *
  omega

theorem lexLe_total (a b : Nat × Nat) : (lexLe a b || lexLe b a) = true := by
  simp only [lexLe, Bool.or_eq_true, Bool.and_eq_true, decide_eq_true_eq, beq_iff_eq]
  omega

theorem lexLe_antisymm {a b : Nat × Nat} (first : lexLe a b = true) (second : lexLe b a = true) :
    a = b := by
  simp only [lexLe, Bool.or_eq_true, Bool.and_eq_true, decide_eq_true_eq, beq_iff_eq] at *
  exact Prod.ext (by omega) (by omega)

theorem fst_le_of_lexLe {a b : Nat × Nat} (ordered : lexLe a b = true) : a.1 ≤ b.1 := by
  simp only [lexLe, Bool.or_eq_true, Bool.and_eq_true, decide_eq_true_eq, beq_iff_eq] at ordered
  omega

theorem lexLe_of_fst_lt {a b : Nat × Nat} (before : a.1 < b.1) : lexLe a b = true := by
  simp only [lexLe, before, decide_true, Bool.true_or]

/-! ### The statistic -/

/-- The statistic counted over a list of chunk values, in order. -/
def statisticOf (values : List Nat) : Statistic :=
  values.zipIdx.foldl (fun statistic entry => countChunk statistic entry.2 entry.1) ∅

theorem statisticOf_append_singleton (values : List Nat) (chunk : Nat) :
    statisticOf (values ++ [chunk]) = countChunk (statisticOf values) values.length chunk := by
  simp only [statisticOf, List.zipIdx_append, List.foldl_append, Nat.zero_add]
  rfl

theorem lookup_countChunk_of_lookup_eq_some {statistic : Statistic} {position chunk count first : Nat}
    (found : statistic.lookup chunk = some (count, first)) :
    (countChunk statistic position chunk).lookup chunk = some (count + 1, first) := by
  rw [countChunk, found, AList.lookup_insert]

theorem lookup_countChunk_of_lookup_eq_none {statistic : Statistic} {position chunk : Nat}
    (missing : statistic.lookup chunk = none) :
    (countChunk statistic position chunk).lookup chunk = some (1, position) := by
  rw [countChunk, missing, AList.lookup_insert]

theorem lookup_countChunk_of_ne {statistic : Statistic} {position chunk other : Nat}
    (apart : other ≠ chunk) :
    (countChunk statistic position chunk).lookup other = statistic.lookup other := by
  unfold countChunk
  split <;> exact AList.lookup_insert_ne apart

/-- Each chunk that occurs is counted, with the position it first occurs at. -/
theorem lookup_statisticOf (values : List Nat) (chunk : Nat) :
    (statisticOf values).lookup chunk =
      if chunk ∈ values then some (values.count chunk, values.idxOf chunk) else none := by
  induction values using List.reverseRecOn with
  | nil => rfl
  | append_singleton values last ih =>
    rw [statisticOf_append_singleton]
    by_cases same : chunk = last
    · -- the lookup of the new chunk decides which of `or_insert`'s branches runs
      subst same
      have inside : chunk ∈ values ++ [chunk] := List.mem_append_right _ (List.mem_singleton_self _)
      by_cases seen : chunk ∈ values
      · rw [lookup_countChunk_of_lookup_eq_some (by rw [ih, if_pos seen]), if_pos inside,
          List.count_append, List.count_singleton_self, List.idxOf_append_of_mem seen]
      · rw [lookup_countChunk_of_lookup_eq_none (by rw [ih, if_neg seen]), if_pos inside,
          List.count_append, List.count_singleton_self, List.count_eq_zero_of_not_mem seen,
          List.idxOf_append_of_notMem seen, List.idxOf_cons_self]
        rfl
    · rw [lookup_countChunk_of_ne same, ih]
      have apart : chunk ∉ [last] := by simpa using same
      by_cases seen : chunk ∈ values
      · rw [if_pos seen, if_pos (List.mem_append_left _ seen), List.count_append,
          List.count_eq_zero_of_not_mem apart, Nat.add_zero, List.idxOf_append_of_mem seen]
      · rw [if_neg seen, if_neg (by simpa [List.mem_append] using ⟨seen, same⟩)]

theorem mem_statisticOf_iff (values : List Nat) (chunk : Nat) :
    chunk ∈ statisticOf values ↔ chunk ∈ values := by
  rw [← AList.lookup_isSome, lookup_statisticOf]
  by_cases seen : chunk ∈ values
  · simp only [seen, if_true, Option.isSome_some]
  · simp only [seen, if_false, Option.isSome_none, Bool.false_eq_true]

/-- Every entry of the statistic holds the count and the first position of its chunk. -/
theorem entry_of_mem_statisticOf {values : List Nat} {entry : Σ _ : Nat, Nat × Nat}
    (member : entry ∈ (statisticOf values).entries) :
    entry.2 = (values.count entry.1, values.idxOf entry.1) := by
  have found : entry.2 ∈ (statisticOf values).lookup entry.1 := AList.mem_lookup_iff.mpr member
  rw [lookup_statisticOf] at found
  split_ifs at found
  · exact (Option.some_injective _ (Option.mem_def.mp found)).symm
  · cases found

/-- The statistic sorted by its (count, first position) pairs, as `compress_to_bytes` sorts it. -/
def sortedStatistic (values : List Nat) : List (Σ _ : Nat, Nat × Nat) :=
  (statisticOf values).entries.mergeSort fun x y => lexLe x.2 y.2

/-- The chunks in the order the dictionary receives them, the most frequent first. -/
def dictionaryKeys (values : List Nat) : List Nat :=
  (sortedStatistic values).reverse.map Sigma.fst

theorem dictionaryKeys_perm (values : List Nat) :
    (dictionaryKeys values).Perm (statisticOf values).keys :=
  ((List.reverse_perm _).trans (List.mergeSort_perm _ _)).map Sigma.fst

theorem nodup_dictionaryKeys (values : List Nat) : (dictionaryKeys values).Nodup :=
  (dictionaryKeys_perm values).nodup_iff.mpr (AList.keys_nodup _)

theorem mem_dictionaryKeys (values : List Nat) (chunk : Nat) :
    chunk ∈ dictionaryKeys values ↔ chunk ∈ values := by
  rw [(dictionaryKeys_perm values).mem_iff, ← AList.mem_keys, mem_statisticOf_iff]

/-- The dictionary has one entry for each distinct chunk. -/
theorem length_dictionaryKeys (values : List Nat) :
    (dictionaryKeys values).length = values.dedup.length := by
  have same : (dictionaryKeys values).Perm values.dedup := by
    rw [List.perm_ext_iff_of_nodup (nodup_dictionaryKeys values) (List.nodup_dedup values)]
    intro chunk
    rw [mem_dictionaryKeys, List.mem_dedup]
  exact same.length_eq

theorem length_sortedStatistic (values : List Nat) :
    (sortedStatistic values).length = (dictionaryKeys values).length := by
  rw [dictionaryKeys, List.length_map, List.length_reverse]

/-- The dictionary receives the chunks the most frequent first. -/
theorem counts_dictionaryKeys (values : List Nat) :
    ((dictionaryKeys values).map values.count).Pairwise (· ≥ ·) := by
  have sorted : (sortedStatistic values).Pairwise fun x y => lexLe x.2 y.2 = true :=
    List.pairwise_mergeSort (fun x y z => lexLe_trans x.2 y.2 z.2) (fun x y => lexLe_total x.2 y.2) _
  -- each key's count is the first component of the pair it was sorted by
  have counted : ∀ entry ∈ sortedStatistic values, values.count entry.1 = entry.2.1 := by
    intro entry member
    rw [entry_of_mem_statisticOf ((List.mergeSort_perm _ _).mem_iff.mp member)]
  rw [dictionaryKeys, List.map_map, List.map_reverse, List.pairwise_reverse, List.pairwise_map]
  refine List.Pairwise.imp_of_mem ?_ sorted
  intro x y inX inY ordered
  simp only [Function.comp_apply, counted x inX, counted y inY]
  exact fst_le_of_lexLe ordered

/-! ### The dictionary -/

/-- The dictionary filled from a list of chunks: each gets the dictionary's size before it. -/
def dictionaryOf (chunks : List Nat) : AList fun _ : Nat => Nat :=
  chunks.foldl (fun dictionary chunk => dictionary.insert chunk (dictionary.entries.length % 2 ^ 16)) ∅

theorem dictionaryOf_append_singleton (chunks : List Nat) (chunk : Nat) :
    dictionaryOf (chunks ++ [chunk]) =
      (dictionaryOf chunks).insert chunk ((dictionaryOf chunks).entries.length % 2 ^ 16) := by
  rw [dictionaryOf, List.foldl_append]
  rfl

/-- Distinct chunks, at most `2^16` of them, get their positions in the list as indices. -/
theorem entries_dictionaryOf {chunks : List Nat} (distinct : chunks.Nodup)
    (fits : chunks.length ≤ 2 ^ 16) :
    (dictionaryOf chunks).entries = (chunks.zipIdx.map fun p => ⟨p.1, p.2⟩).reverse := by
  induction chunks using List.reverseRecOn with
  | nil => rfl
  | append_singleton chunks last ih =>
    obtain ⟨before, -, apart⟩ := List.nodup_append.mp distinct
    rw [List.length_append, List.length_singleton] at fits
    have previous := ih before (by omega)
    have fresh : last ∉ dictionaryOf chunks := by
      rw [AList.mem_keys, AList.keys, previous, List.keys, List.map_reverse, List.map_map,
        List.mem_reverse]
      intro member
      exact apart last (by simpa [Function.comp_def, List.zipIdx_map_fst] using member) last
        (List.mem_singleton_self last) rfl
    have size : (dictionaryOf chunks).entries.length % 2 ^ 16 = chunks.length := by
      rw [previous, List.length_reverse, List.length_map, List.length_zipIdx]
      exact Nat.mod_eq_of_lt (by omega)
    rw [dictionaryOf_append_singleton, AList.entries_insert_of_notMem fresh, size, previous,
      List.zipIdx_append, Nat.zero_add, List.map_append, List.reverse_append]
    rfl

theorem length_entries_dictionaryOf {chunks : List Nat} (distinct : chunks.Nodup)
    (fits : chunks.length ≤ 2 ^ 16) : (dictionaryOf chunks).entries.length = chunks.length := by
  rw [entries_dictionaryOf distinct fits, List.length_reverse, List.length_map, List.length_zipIdx]

theorem lookup_dictionaryOf {chunks : List Nat} (distinct : chunks.Nodup)
    (fits : chunks.length ≤ 2 ^ 16) {chunk : Nat} (member : chunk ∈ chunks) :
    (dictionaryOf chunks).lookup chunk = some (chunks.idxOf chunk) := by
  rw [← Option.mem_def, AList.mem_lookup_iff, entries_dictionaryOf distinct fits, List.mem_reverse,
    List.mem_map]
  exact ⟨(chunk, chunks.idxOf chunk), List.mem_zipIdx_iff_getElem?.mpr (List.getElem?_idxOf member),
    rfl⟩

/-- Indices increase along the list. -/
theorem pairwise_lexLe_zipIdx (chunks : List Nat) :
    (chunks.zipIdx.map fun p => (p.2, p.1)).Pairwise fun a b => lexLe a b = true := by
  have increasing : (chunks.zipIdx.map Prod.snd).Pairwise (· < ·) := by
    rw [List.zipIdx_map_snd]
    exact List.pairwise_lt_range'
  rw [List.pairwise_map] at increasing ⊢
  exact increasing.imp lexLe_of_fst_lt

/-- Sorting the dictionary's (index, chunk) pairs lists the chunks in the order they came in. -/
theorem sort_entries_dictionaryOf {chunks : List Nat} (distinct : chunks.Nodup)
    (fits : chunks.length ≤ 2 ^ 16) :
    ((dictionaryOf chunks).entries.map fun entry => (entry.2, entry.1)).mergeSort
      (fun x y => lexLe x y) = chunks.zipIdx.map fun p => (p.2, p.1) := by
  rw [entries_dictionaryOf distinct fits, List.map_reverse, List.map_map]
  apply List.Perm.eq_of_pairwise (fun a b _ _ ab ba => lexLe_antisymm ab ba)
  · exact List.pairwise_mergeSort lexLe_trans lexLe_total _
  · exact pairwise_lexLe_zipIdx chunks
  · exact (List.mergeSort_perm _ _).trans (List.reverse_perm _)

/-! ### Valid bytecodes -/

theorem validateBytecode_eq_ok_iff (code : List UInt8) :
    validateBytecode code = .ok () ↔
      code.length ≤ MAX_BYTECODE_LENGTH_BYTES ∧ code.length % 32 = 0 ∧ code.length / 32 % 2 = 1 := by
  simp only [validateBytecode]
  -- the checks run in order, and the first that fails decides the error
  by_cases tooLong : code.length > MAX_BYTECODE_LENGTH_BYTES
  · rw [if_pos tooLong]
    exact iff_of_false (fun thrown => by cases thrown) (by omega)
  rw [if_neg tooLong]
  by_cases unaligned : code.length % 32 ≠ 0
  · rw [if_pos unaligned]
    exact iff_of_false (fun thrown => by cases thrown) (by omega)
  rw [if_neg unaligned]
  by_cases even : code.length / 32 % 2 = 0
  · rw [if_pos even]
    exact iff_of_false (fun thrown => by cases thrown) (by omega)
  rw [if_neg even]
  exact iff_of_true rfl (by omega)

/-- The chunks of a bytecode read as big-endian `u64` values, in order. -/
def chunkValues (code : List UInt8) : List Nat := (code.chunks 8).map decode

theorem mem_chunkValues {code piece : List UInt8} (member : piece ∈ code.chunks 8) :
    decode piece ∈ chunkValues code :=
  List.mem_map_of_mem member

section Valid

variable {code : List UInt8} (valid : validateBytecode code = .ok ())
include valid

/-- A valid bytecode splits into `code.length / 8` chunks of 8 bytes. -/
theorem chunks_of_valid :
    (code.chunks 8).length = code.length / 8 ∧ ∀ piece ∈ code.chunks 8, piece.length = 8 := by
  obtain ⟨-, aligned, -⟩ := (validateBytecode_eq_ok_iff code).mp valid
  exact List.chunks_full (by decide) (code.length / 8) code (by omega)

theorem encode_decode_of_mem_chunks {piece : List UInt8} (member : piece ∈ code.chunks 8) :
    encode 8 (decode piece) = piece := by
  have restored := encode_decode piece
  rwa [(chunks_of_valid valid).2 piece member] at restored

theorem lt_of_mem_chunkValues {chunk : Nat} (member : chunk ∈ chunkValues code) :
    chunk < 256 ^ 8 := by
  obtain ⟨piece, inside, rfl⟩ := List.mem_map.mp member
  have bound := decode_lt piece
  rwa [(chunks_of_valid valid).2 piece inside] at bound

/-- Writing the chunk values back gives the chunks. -/
theorem map_encode_chunkValues : (chunkValues code).map (encode 8) = code.chunks 8 := by
  rw [chunkValues, List.map_map]
  conv_rhs => rw [← List.map_id (code.chunks 8)]
  exact List.map_congr_left fun piece member => encode_decode_of_mem_chunks valid member

theorem encode_injOn_chunkValues {x y : Nat} (inX : x ∈ chunkValues code)
    (inY : y ∈ chunkValues code) (same : encode 8 x = encode 8 y) : x = y := by
  rw [← decode_encode_of_lt (lt_of_mem_chunkValues valid inX), same,
    decode_encode_of_lt (lt_of_mem_chunkValues valid inY)]

/-- Distinct chunks have distinct values. -/
theorem length_dedup_chunkValues :
    (chunkValues code).dedup.length = (code.chunks 8).dedup.length := by
  apply List.length_dedup_map_of_injOn
  intro x inX y inY same
  rw [← encode_decode_of_mem_chunks valid inX, same, encode_decode_of_mem_chunks valid inY]

/-- A chunk occurs as often as its value. -/
theorem count_chunks {chunk : Nat} (member : chunk ∈ chunkValues code) :
    (code.chunks 8).count (encode 8 chunk) = (chunkValues code).count chunk := by
  rw [← map_encode_chunkValues valid]
  exact List.count_map_of_injOn fun other inOther same =>
    encode_injOn_chunkValues valid inOther member same

end Valid

/-! ### The compressed bytes -/

/-- The bytes of a dictionary code: the dictionary's length, the dictionary, and the two-byte
indices of the chunks. -/
def dictionaryCode (dictionary : List (List UInt8)) (indices : List Nat) : List UInt8 :=
  encode 2 dictionary.length ++ dictionary.flatten ++ (indices.map (encode 2)).flatten

theorem statistic_fold_eq (code : List UInt8) :
    (code.chunks 8).zipIdx.foldl (fun statistic x => countChunk statistic x.2 (decode x.1)) ∅ =
      statisticOf (chunkValues code) := by
  rw [statisticOf, chunkValues, List.zipIdx_map, List.foldl_map]
  rfl

theorem sortedStatistic_eq (values : List Nat) :
    ((statisticOf values).entries.mergeSort fun x y => lexLe x.2 y.2) = sortedStatistic values :=
  rfl

theorem dictionary_fold_eq (values : List Nat) :
    (sortedStatistic values).reverse.foldl
        (fun dictionary entry => dictionary.insert entry.1 (dictionary.entries.length % 2 ^ 16)) ∅ =
      dictionaryOf (dictionaryKeys values) := by
  rw [dictionaryKeys, dictionaryOf, List.foldl_map]

theorem map_encode_zipIdx (chunks : List Nat) :
    ((chunks.zipIdx.map fun p => (p.2, p.1)).map fun entry => encode 8 entry.2) =
      chunks.map (encode 8) := by
  conv_rhs => rw [← List.zipIdx_map_fst 0 chunks]
  rw [List.map_map, List.map_map]
  rfl

theorem compressToBytes_of_overflow {code : List UInt8} (valid : validateBytecode code = .ok ())
    (overflow : U16_MAX < (dictionaryKeys (chunkValues code)).length) :
    compressToBytes code = some (.error .dictionaryOverflow) := by
  have tooLong : (sortedStatistic (chunkValues code)).length > U16_MAX := by
    rw [length_sortedStatistic]
    exact overflow
  simp only [compressToBytes, valid, statistic_fold_eq, sortedStatistic_eq]
  change (if (sortedStatistic (chunkValues code)).length > U16_MAX then _ else _) = _
  rw [if_pos tooLong]
  rfl

/-- Within the limit, the dictionary is the chunks the most frequent first, and each chunk is
written as its position in it. -/
theorem compressToBytes_of_fits {code : List UInt8} (valid : validateBytecode code = .ok ())
    (fits : (dictionaryKeys (chunkValues code)).length ≤ U16_MAX) :
    compressToBytes code = some (.ok (dictionaryCode
      ((dictionaryKeys (chunkValues code)).map (encode 8))
      ((code.chunks 8).map fun piece => (dictionaryKeys (chunkValues code)).idxOf (decode piece)))) := by
  set keys := dictionaryKeys (chunkValues code) with keysEq
  have distinct : keys.Nodup := nodup_dictionaryKeys _
  have small : keys.length ≤ 2 ^ 16 := by
    unfold U16_MAX at fits
    omega
  have notOver : ¬ (sortedStatistic (chunkValues code)).length > U16_MAX := by
    rw [length_sortedStatistic, ← keysEq]
    omega
  -- every chunk is found in the dictionary, so the `unwrap` of its index succeeds
  have encoded : (code.chunks 8).mapM (fun chunkBytes =>
      ((dictionaryOf keys).lookup (decode chunkBytes)).map (encode 2)) =
      some ((code.chunks 8).map fun piece => encode 2 (keys.idxOf (decode piece))) := by
    apply List.mapM_eq_some_map
    intro piece member
    rw [lookup_dictionaryOf distinct small ((mem_dictionaryKeys _ _).mpr (mem_chunkValues member))]
    rfl
  simp only [compressToBytes, valid, statistic_fold_eq, sortedStatistic_eq, dictionary_fold_eq]
  change (if (sortedStatistic (chunkValues code)).length > U16_MAX then _ else _) = _
  rw [if_neg notOver, encoded, sort_entries_dictionaryOf distinct small,
    length_entries_dictionaryOf distinct small, map_encode_zipIdx, dictionaryCode, List.length_map,
    List.map_map]
  rfl

/-! ### Decompression -/

/-- The decoder reads back any dictionary of 8-byte chunks, and looks each index up in it. -/
theorem decompressBytecode_dictionaryCode (dictionary : List (List UInt8)) (indices : List Nat)
    (full : ∀ chunk ∈ dictionary, chunk.length = 8) (fits : dictionary.length < 256 ^ 2)
    (inside : ∀ index ∈ indices, index < dictionary.length) :
    decompressBytecode (dictionaryCode dictionary indices) =
      some (indices.map fun index => dictionary.getD index []).flatten := by
  set raw := dictionaryCode dictionary indices with rawEq
  have shape : raw = encode 2 dictionary.length ++
      (dictionary.flatten ++ (indices.map (encode 2)).flatten) := by
    rw [rawEq, dictionaryCode, List.append_assoc]
  have dictionaryLength : dictionary.flatten.length = dictionary.length * 8 :=
    List.length_flatten_of_full _ full
  have length : raw.length = 2 + dictionary.length * 8 + (indices.map (encode 2)).flatten.length := by
    rw [shape, List.length_append, List.length_append, length_encode, dictionaryLength,
      Nat.add_assoc]
  have notShort : ¬ raw.length < 2 := by omega
  have notTruncated : ¬ raw.length < 2 + dictionary.length * 8 := by omega
  have header : decode (raw.take 2) = dictionary.length := by
    rw [shape, List.take_left' (length_encode 2 _), decode_encode_of_lt fits]
  have encodedData : raw.drop (2 + dictionary.length * 8) = (indices.map (encode 2)).flatten := by
    rw [shape, ← List.drop_drop, List.drop_left' (length_encode 2 _),
      List.drop_left' dictionaryLength]
  have indexPieces : ∀ piece ∈ indices.map (encode 2), piece.length = 2 := by
    intro piece member
    obtain ⟨index, -, rfl⟩ := List.mem_map.mp member
    exact length_encode 2 index
  have readIndex : ∀ index ∈ indices, decode (encode 2 index) = index := fun index member =>
    decode_encode_of_lt (Nat.lt_trans (inside index member) fits)
  have entry : ∀ index (below : index < dictionary.length),
      dictionary.getD index [] = dictionary[index] := fun index below => by
    rw [List.getD_eq_getElem?_getD, List.getElem?_eq_getElem below, Option.getD_some]
  simp only [decompressBytecode, if_neg notShort, header, if_neg notTruncated, encodedData]
  rw [List.mapM_eq_some_map (decode ∘ fun index => dictionary.getD index []), ← List.map_map,
    List.map_getD_range, List.chunks_flatten (by decide) _ indexPieces, Option.bind_eq_bind,
    Option.bind_some,
    List.mapM_eq_some_map (fun indexBytes => dictionary.getD (decode indexBytes) []),
    Option.pure_def, List.map_map]
  · -- the chunks come back in the order of the indices
    rw [Option.bind_eq_bind, Option.bind_some]
    congr 2
    apply List.map_congr_left
    intro index member
    rw [Function.comp_apply, readIndex index member]
  · intro indexBytes mapped
    obtain ⟨index, member, rfl⟩ := List.mem_map.mp mapped
    have below := inside index member
    have restored := encode_decode dictionary[index]
    rw [full _ (List.getElem_mem below)] at restored
    rw [length_encode, if_neg (fun differs => differs rfl), readIndex index member,
      List.getElem?_map, List.getElem?_eq_getElem below, Option.map_some, Option.bind_eq_bind,
      Option.bind_some, Option.pure_def, entry index below, restored]
  · -- each dictionary entry is read from its own 8 bytes
    intro index member
    have below := List.mem_range.mp member
    rw [if_pos (by omega), shape, ← List.drop_drop, List.drop_left' (length_encode 2 _),
      List.take_drop_flatten_append _ full _ index below, Function.comp_apply, entry index below]

/-! ### Dictionary codes -/

/-- `dictionary` and `indices` are a dictionary code of `code`: the dictionary holds each
distinct chunk of `code` once, 8 bytes each, the most frequent first, and the indices name the
chunks of `code` in order. -/
structure IsDictionaryCode (code : List UInt8) (dictionary : List (List UInt8))
    (indices : List Nat) : Prop where
  distinct : dictionary.Nodup
  full : ∀ chunk ∈ dictionary, chunk.length = 8
  complete : ∀ chunk, chunk ∈ dictionary ↔ chunk ∈ code.chunks 8
  length_indices : indices.length = code.length / 8
  index : ∀ k < (code.chunks 8).length, ∃ i < dictionary.length,
    indices[k]? = some i ∧ dictionary[i]? = (code.chunks 8)[k]?
  frequentFirst : (dictionary.map (code.chunks 8).count).Pairwise (· ≥ ·)

/-- A dictionary code of a valid bytecode within the index range decompresses to it. -/
theorem IsDictionaryCode.decompress {code : List UInt8} {dictionary : List (List UInt8)}
    {indices : List Nat} (isCode : IsDictionaryCode code dictionary indices)
    (valid : validateBytecode code = .ok ()) (fits : dictionary.length ≤ U16_MAX) :
    decompressBytecode (dictionaryCode dictionary indices) = some code := by
  have sameLength : indices.length = (code.chunks 8).length := by
    rw [isCode.length_indices, (chunks_of_valid valid).1]
  -- the index of the `k`-th chunk, read off the list of indices
  have named : ∀ k (below : k < indices.length), ∃ i < dictionary.length,
      indices[k] = i ∧ dictionary[i]? = (code.chunks 8)[k]? := by
    intro k below
    obtain ⟨i, small, found, chunk⟩ := isCode.index k (sameLength ▸ below)
    rw [List.getElem?_eq_getElem below, Option.some_inj] at found
    exact ⟨i, small, found, chunk⟩
  have inside : ∀ index ∈ indices, index < dictionary.length := by
    intro index member
    obtain ⟨k, below, rfl⟩ := List.getElem_of_mem member
    obtain ⟨i, small, found, -⟩ := named k below
    rw [found]
    exact small
  rw [decompressBytecode_dictionaryCode dictionary indices isCode.full
    (by unfold U16_MAX at fits; omega) inside]
  conv_rhs => rw [← List.flatten_chunks (by decide : 0 < 8) code]
  congr 2
  apply List.ext_getElem (by rw [List.length_map, sameLength])
  intro k below _
  rw [List.length_map] at below
  obtain ⟨i, small, found, chunk⟩ := named k below
  rw [List.getElem_map, found, List.getD_eq_getElem?_getD, chunk,
    List.getElem?_eq_getElem (sameLength ▸ below), Option.getD_some]

/-- What `compress_to_bytes` writes within the limit is a dictionary code. -/
theorem isDictionaryCode_dictionaryKeys {code : List UInt8} (valid : validateBytecode code = .ok ()) :
    IsDictionaryCode code ((dictionaryKeys (chunkValues code)).map (encode 8))
      ((code.chunks 8).map fun piece => (dictionaryKeys (chunkValues code)).idxOf (decode piece)) where
  distinct := by
    apply List.Nodup.map_on _ (nodup_dictionaryKeys _)
    intro x inX y inY same
    exact encode_injOn_chunkValues valid ((mem_dictionaryKeys _ _).mp inX)
      ((mem_dictionaryKeys _ _).mp inY) same
  full := by
    intro chunk member
    obtain ⟨value, -, rfl⟩ := List.mem_map.mp member
    exact length_encode 8 value
  complete := by
    intro chunk
    rw [← map_encode_chunkValues valid]
    simp only [List.mem_map, mem_dictionaryKeys]
  length_indices := by rw [List.length_map, (chunks_of_valid valid).1]
  index := by
    intro k below
    have known : decode (code.chunks 8)[k] ∈ dictionaryKeys (chunkValues code) :=
      (mem_dictionaryKeys _ _).mpr (mem_chunkValues (List.getElem_mem below))
    have small := List.idxOf_lt_length_of_mem known
    refine ⟨_, by rwa [List.length_map], by rw [List.getElem?_map, List.getElem?_eq_getElem below,
      Option.map_some], ?_⟩
    rw [List.getElem?_map, List.getElem?_eq_getElem small, Option.map_some, List.getElem_idxOf small,
      encode_decode_of_mem_chunks valid (List.getElem_mem below), List.getElem?_eq_getElem below]
  frequentFirst := by
    rw [List.map_map]
    have counted : ∀ value ∈ dictionaryKeys (chunkValues code),
        ((code.chunks 8).count ∘ encode 8) value = (chunkValues code).count value :=
      fun value member => count_chunks valid ((mem_dictionaryKeys _ _).mp member)
    rw [List.map_congr_left counted]
    exact counts_dictionaryKeys _

/-- Bytecode compression is a dictionary code: it overflows exactly when the bytecode has more
than `u16::MAX` distinct chunks, and otherwise writes a dictionary code that decompresses back. -/
theorem compressToBytes_dictionary_code (code : List UInt8) (valid : validateBytecode code = .ok ()) :
    (compressToBytes code = some (.error .dictionaryOverflow) ↔
      U16_MAX < (code.chunks 8).dedup.length) ∧
    ((code.chunks 8).dedup.length ≤ U16_MAX → ∃ dictionary indices,
      compressToBytes code = some (.ok (dictionaryCode dictionary indices)) ∧
      IsDictionaryCode code dictionary indices ∧
      decompressBytecode (dictionaryCode dictionary indices) = some code) := by
  have distinctCount : (dictionaryKeys (chunkValues code)).length = (code.chunks 8).dedup.length := by
    rw [length_dictionaryKeys, length_dedup_chunkValues valid]
  refine ⟨⟨fun overflowed => ?_, fun overflow => ?_⟩, fun fits => ?_⟩
  · by_contra within
    rw [compressToBytes_of_fits valid (by omega)] at overflowed
    cases overflowed
  · exact compressToBytes_of_overflow valid (by omega)
  · have isCode := isDictionaryCode_dictionaryKeys valid
    refine ⟨_, _, compressToBytes_of_fits valid (by omega), isCode, isCode.decompress valid ?_⟩
    rw [List.length_map, distinctCount]
    exact fits

/-- The bytecode of the statistics test: three distinct chunks, the middle one twice. -/
theorem compressToBytes_dictionary_code_statistics :
    validateBytecode (List.replicate 8 0 ++ List.replicate 16 0x11 ++ List.replicate 8 0x22) = .ok () ∧
    (compressToBytes (List.replicate 8 0 ++ List.replicate 16 0x11 ++ List.replicate 8 0x22) =
        some (.error .dictionaryOverflow) ↔
      U16_MAX < ((List.replicate 8 0 ++ List.replicate 16 0x11 ++ List.replicate 8 0x22).chunks 8).dedup.length) ∧
    (((List.replicate 8 0 ++ List.replicate 16 0x11 ++ List.replicate 8 0x22).chunks 8).dedup.length ≤ U16_MAX →
      ∃ dictionary indices,
        compressToBytes (List.replicate 8 0 ++ List.replicate 16 0x11 ++ List.replicate 8 0x22) =
          some (.ok (dictionaryCode dictionary indices)) ∧
        IsDictionaryCode (List.replicate 8 0 ++ List.replicate 16 0x11 ++ List.replicate 8 0x22)
          dictionary indices ∧
        decompressBytecode (dictionaryCode dictionary indices) =
          some (List.replicate 8 0 ++ List.replicate 16 0x11 ++ List.replicate 8 0x22)) :=
  ⟨rfl, compressToBytes_dictionary_code _ rfl⟩

end ZksyncEra.Multivm
