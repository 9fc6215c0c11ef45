import ZksyncEra.Lib.Tally
import ZksyncEra.Multivm.Spec.Deduplicator

/-!
What the deduplicator computes, stated over the write logs of the batch so far: each written key
keeps the previous value of its first write; it is modified when the value of its last write
differs from that, with the size of the compressed update; the metrics count the modified keys by
kind and add their sizes.

`apply` computes exactly this from a new deduplicator when each key is written with one kind only
(`KindsAgree`), and never panics on the way. The invariant `Tracks` carries it: one write log
changes its key's entry and nothing else (`expectedSlot_append_singleton`), and the counters,
kept as sums over the written keys, change by that key's summand alone (`Finset.sum_insert_add_of_agree`).
-/

namespace ZksyncEra.Multivm

open MerkleTree Writes

namespace StorageWritesDeduplicator

variable {K : Type} [DecidableEq K]

/-! ### One key's entry -/

/-- The size of `compress_with_best_strategy(initial, value)`, which always compresses. -/
def compressedSize (initial value : H256) : Nat :=
  ((compressWithBestStrategy initial value).getD []).length

/-- The modified slot of a key whose value went from `initial` to `value`: none when it is back. -/
def slotFor (initial value : H256) : Option ModifiedSlot :=
  if initial ≠ value then some ⟨value, compressedSize initial value⟩ else none

/-- What a key adds to the counter of `isWriteInitial`: one when it is modified and of that kind. -/
def slotCount (isWriteInitial : Bool) (slot : Option ModifiedSlot) (keyIsInitial : Bool) : Nat :=
  if slot.isSome ∧ keyIsInitial = isWriteInitial then 1 else 0

/-- What a key adds to the total size of the updates. -/
def slotSize (slot : Option ModifiedSlot) : Nat := (slot.map (·.size)).getD 0

theorem compressWithBestStrategy_eq_some (initial value : H256) :
    ∃ bytes, compressWithBestStrategy initial value = some bytes := by
  obtain ⟨m, rest, compressed, -⟩ := compressWithBestStrategy_decodable initial value
  exact ⟨m :: rest, compressed⟩

theorem length_eq_compressedSize {initial value : H256} {bytes : List UInt8}
    (compressed : compressWithBestStrategy initial value = some bytes) :
    bytes.length = compressedSize initial value := by
  simp [compressedSize, compressed]

@[simp] theorem slotCount_none (isWriteInitial keyIsInitial : Bool) :
    slotCount isWriteInitial none keyIsInitial = 0 := by
  simp [slotCount]

@[simp] theorem slotCount_some_self (isWriteInitial : Bool) (slot : ModifiedSlot) :
    slotCount isWriteInitial (some slot) isWriteInitial = 1 := by
  simp [slotCount]

theorem slotCount_some_of_ne {isWriteInitial keyIsInitial : Bool} (slot : ModifiedSlot)
    (differ : isWriteInitial ≠ keyIsInitial) :
    slotCount isWriteInitial (some slot) keyIsInitial = 0 := by
  simp [slotCount, Ne.symm differ]

@[simp] theorem slotSize_none : slotSize none = 0 := rfl

@[simp] theorem slotSize_some (slot : ModifiedSlot) : slotSize (some slot) = slot.size := rfl

/-! ### What one write log does to the state -/

section Processed

variable {self after : StorageWritesDeduplicator K} {log : StorageLogWithPreviousValue K}
  {update : Option (UpdateItem K)}

theorem Processed.initialValues_eq (processed : Processed self log after update) :
    after.initialValues = self.recordInitial log := by
  cases processed <;> rfl

/-- The log's key gets the slot of its value against the key's initial value; no other key
changes. -/
theorem Processed.modifiedKeyValues_eq (processed : Processed self log after update) :
    after.modifiedKeyValues = Function.update self.modifiedKeyValues log.log.key
      (slotFor (self.initialValueFor log) log.log.value) := by
  cases processed with
  | remove value modified initial counted sized => simp [slotFor, initial]
  | update old bytes modified changed compressed sized =>
    simp [slotFor, changed, length_eq_compressedSize compressed]
  | insert bytes unmodified changed compressed =>
    simp [slotFor, changed, length_eq_compressedSize compressed]
  | unchanged unmodified initial =>
    -- the key stays unmodified, which the update writes back
    simp [slotFor, initial, ← unmodified]

/-- Each counter changes by what the log's key adds to it, before and after. -/
theorem Processed.writes_add (processed : Processed self log after update) (isWriteInitial : Bool) :
    after.metrics.writes isWriteInitial +
        slotCount isWriteInitial (self.modifiedKeyValues log.log.key) log.isWriteInitial =
      self.metrics.writes isWriteInitial +
        slotCount isWriteInitial (after.modifiedKeyValues log.log.key) log.isWriteInitial := by
  by_cases same : isWriteInitial = log.isWriteInitial
  · subst same
    cases processed with
    | remove value modified initial counted sized =>
      simp only [modified, Function.update_self, DeduplicatedWritesMetrics.writes_withTotal,
        DeduplicatedWritesMetrics.writes_setWrites, slotCount_some_self, slotCount_none]
      omega
    | update old bytes modified changed compressed sized => simp [modified]
    | insert bytes unmodified changed compressed => simp [unmodified]
    | unchanged unmodified initial => rfl
  · cases processed with
    | remove value modified initial counted sized =>
      simp [modified, slotCount_some_of_ne _ same, same]
    | update old bytes modified changed compressed sized => simp [modified, slotCount]
    | insert bytes unmodified changed compressed =>
      simp [unmodified, slotCount_some_of_ne _ same, same]
    | unchanged unmodified initial => rfl

/-- The total size changes by the size of the log's key, before and after. -/
theorem Processed.total_add (processed : Processed self log after update) :
    after.metrics.totalUpdatedValuesSize + slotSize (self.modifiedKeyValues log.log.key) =
      self.metrics.totalUpdatedValuesSize + slotSize (after.modifiedKeyValues log.log.key) := by
  cases processed with
  | remove value modified initial counted sized =>
    simp only [modified, Function.update_self, slotSize_some, slotSize_none]
    omega
  | update old bytes modified changed compressed sized =>
    simp only [modified, Function.update_self, slotSize_some]
    omega
  | insert bytes unmodified changed compressed => simp [unmodified]
  | unchanged unmodified initial => rfl

end Processed

/-- A write log goes through whenever the counter of its kind and the total size hold what its
key adds to them. -/
theorem exists_processed (self : StorageWritesDeduplicator K) (log : StorageLogWithPreviousValue K)
    (covered : ∀ value, self.modifiedKeyValues log.log.key = some value →
      1 ≤ self.metrics.writes log.isWriteInitial ∧ value.size ≤ self.metrics.totalUpdatedValuesSize) :
    ∃ after update, Processed self log after update := by
  obtain ⟨bytes, compressed⟩ :=
    compressWithBestStrategy_eq_some (self.initialValueFor log) log.log.value
  rcases modified : self.modifiedKeyValues log.log.key with _ | value <;>
    by_cases initial : self.initialValueFor log = log.log.value
  · exact ⟨_, _, .unchanged modified initial⟩
  · exact ⟨_, _, .insert bytes modified initial compressed⟩
  · obtain ⟨counted, sized⟩ := covered value modified
    exact ⟨_, _, .remove value modified initial counted sized⟩
  · obtain ⟨-, sized⟩ := covered value modified
    exact ⟨_, _, .update value bytes modified initial compressed sized⟩

/-! ### The writes of a batch -/

section Writes

variable (writes : List (StorageLogWithPreviousValue K)) (key : K)

/-- The first write log of a key. -/
def firstWrite : Option (StorageLogWithPreviousValue K) := writes.find? (·.log.key == key)

/-- The last write log of a key. -/
def lastWrite : Option (StorageLogWithPreviousValue K) := writes.reverse.find? (·.log.key == key)

/-- The initial value of a key: the previous value of its first write. -/
def expectedInitial : Option H256 := (firstWrite writes key).map (·.previousValue)

/-- The modified slot of a key: the value of its last write, when it differs from the previous
value of its first one. -/
def expectedSlot : Option ModifiedSlot := do
  let first ← firstWrite writes key
  let last ← lastWrite writes key
  slotFor first.previousValue last.log.value

/-- Whether a key's (last) write is an initial one. -/
def keyIsInitial : Bool := ((lastWrite writes key).map (·.isWriteInitial)).getD false

/-- The written keys. -/
def writtenKeys : Finset K := (writes.map (·.log.key)).toFinset

/-- The written keys whose value differs from their initial one. -/
def modifiedKeys : Finset K := (writtenKeys writes).filter fun key => (expectedSlot writes key).isSome

/-- The kind of a key's (last) write. -/
def keyKind : Option StorageLogKind := (lastWrite writes key).map (·.log.kind)

/-- The metrics of the batch: its modified keys of each kind, and the sizes of their updates. -/
def expectedMetrics : DeduplicatedWritesMetrics where
  initialStorageWrites :=
    ((modifiedKeys writes).filter fun key => keyKind writes key = some .initialWrite).card
  repeatedStorageWrites :=
    ((modifiedKeys writes).filter fun key => keyKind writes key = some .repeatedWrite).card
  totalUpdatedValuesSize := ∑ key ∈ modifiedKeys writes, slotSize (expectedSlot writes key)

/-- Each key is written with one kind only. -/
def KindsAgree : Prop :=
  ∀ a ∈ writes, ∀ b ∈ writes, a.log.key = b.log.key → a.log.kind = b.log.kind

instance : Decidable (KindsAgree writes) := by
  unfold KindsAgree
  infer_instance

/-- The write logs of a sequence of chunks, in order. -/
def batchWrites (chunks : List (List (StorageLogWithPreviousValue K))) :
    List (StorageLogWithPreviousValue K) :=
  chunks.flatten.filter fun log => log.log.isWrite

end Writes

omit [DecidableEq K] in
theorem KindsAgree.mono {writes fewer : List (StorageLogWithPreviousValue K)}
    (agree : KindsAgree writes) (sub : fewer ⊆ writes) : KindsAgree fewer :=
  fun a memA b memB sameKey => agree a (sub memA) b (sub memB) sameKey

section Append

variable {writes : List (StorageLogWithPreviousValue K)} {key : K}

theorem firstWrite_eq_none_iff : firstWrite writes key = none ↔ key ∉ writtenKeys writes := by
  simp [firstWrite, writtenKeys]

theorem lastWrite_eq_none_iff : lastWrite writes key = none ↔ key ∉ writtenKeys writes := by
  simp [lastWrite, writtenKeys]

theorem expectedSlot_eq_none (absent : key ∉ writtenKeys writes) : expectedSlot writes key = none := by
  simp [expectedSlot, firstWrite_eq_none_iff.mpr absent]

theorem mem_writtenKeys_of_isSome (modified : (expectedSlot writes key).isSome) :
    key ∈ writtenKeys writes := by
  by_contra absent
  simp [expectedSlot_eq_none absent] at modified

variable (writes) (log : StorageLogWithPreviousValue K)

theorem firstWrite_append_singleton (key : K) :
    firstWrite (writes ++ [log]) key =
      (firstWrite writes key).or (if log.log.key = key then some log else none) := by
  simp [firstWrite, List.find?_append, List.find?_singleton]

theorem lastWrite_append_singleton (key : K) :
    lastWrite (writes ++ [log]) key = if log.log.key = key then some log else lastWrite writes key := by
  by_cases same : log.log.key = key <;> simp [lastWrite, same]

theorem writtenKeys_append_singleton :
    writtenKeys (writes ++ [log]) = insert log.log.key (writtenKeys writes) := by
  ext key
  simp [writtenKeys]

/-- A write records the previous value of its key unless the key has one. -/
theorem expectedInitial_append_singleton :
    expectedInitial (writes ++ [log]) = Function.update (expectedInitial writes) log.log.key
      (some ((expectedInitial writes log.log.key).getD log.previousValue)) := by
  funext key
  by_cases same : key = log.log.key
  · subst same
    cases first : firstWrite writes log.log.key <;>
      simp [expectedInitial, firstWrite_append_singleton, first]
  · simp [expectedInitial, firstWrite_append_singleton, same, Ne.symm same]

/-- A write gives its key the slot of its value against the key's initial value. -/
theorem expectedSlot_append_singleton :
    expectedSlot (writes ++ [log]) = Function.update (expectedSlot writes) log.log.key
      (slotFor ((expectedInitial writes log.log.key).getD log.previousValue) log.log.value) := by
  funext key
  by_cases same : key = log.log.key
  · subst same
    cases first : firstWrite writes log.log.key <;>
      simp [expectedSlot, expectedInitial, firstWrite_append_singleton, lastWrite_append_singleton,
        first]
  · simp [expectedSlot, firstWrite_append_singleton, lastWrite_append_singleton, same, Ne.symm same]

theorem keyIsInitial_append_singleton :
    keyIsInitial (writes ++ [log]) =
      Function.update (keyIsInitial writes) log.log.key log.isWriteInitial := by
  funext key
  by_cases same : key = log.log.key
  · subst same
    simp [keyIsInitial, lastWrite_append_singleton]
  · simp [keyIsInitial, lastWrite_append_singleton, same, Ne.symm same]

/-- A key written before has the kind of the new write, when kinds agree. -/
theorem keyIsInitial_of_mem (agree : KindsAgree (writes ++ [log]))
    (written : log.log.key ∈ writtenKeys writes) :
    keyIsInitial writes log.log.key = log.isWriteInitial := by
  obtain ⟨last, found⟩ := Option.ne_none_iff_exists'.mp
    (mt lastWrite_eq_none_iff.mp (not_not.mpr written))
  have mem : last ∈ writes := List.mem_reverse.mp (List.mem_of_find?_eq_some found)
  have sameKey : last.log.key = log.log.key := by simpa using List.find?_some found
  have sameKind := agree last (List.mem_append_left _ mem) log (by simp) sameKey
  simp [keyIsInitial, found, StorageLogWithPreviousValue.isWriteInitial, sameKind]

/-- A sum over the written keys after one more write: the sum before, with the summand of the
write's key swapped. -/
theorem sum_writtenKeys_append_singleton (summand : Option ModifiedSlot → Bool → Nat)
    (zero : ∀ isInitial, summand none isInitial = 0) :
    ∑ key ∈ writtenKeys (writes ++ [log]),
        summand (expectedSlot (writes ++ [log]) key) (keyIsInitial (writes ++ [log]) key) +
      summand (expectedSlot writes log.log.key) (keyIsInitial writes log.log.key) =
    ∑ key ∈ writtenKeys writes, summand (expectedSlot writes key) (keyIsInitial writes key) +
      summand (expectedSlot (writes ++ [log]) log.log.key) log.isWriteInitial := by
  have last : keyIsInitial (writes ++ [log]) log.log.key = log.isWriteInitial := by
    simp [keyIsInitial_append_singleton]
  rw [writtenKeys_append_singleton, ← last]
  refine Finset.sum_insert_add_of_agree
    (f := fun key => summand (expectedSlot writes key) (keyIsInitial writes key))
    (g := fun key => summand (expectedSlot (writes ++ [log]) key) (keyIsInitial (writes ++ [log]) key))
    ?_ ?_
  · intro key other
    simp [expectedSlot_append_singleton, keyIsInitial_append_singleton, other]
  · intro absent
    rw [expectedSlot_eq_none absent, zero]

/-- Where the key of a write is modified, it already has the write's kind. -/
theorem slotCount_keyIsInitial (agree : KindsAgree (writes ++ [log])) (isWriteInitial : Bool) :
    slotCount isWriteInitial (expectedSlot writes log.log.key) (keyIsInitial writes log.log.key) =
      slotCount isWriteInitial (expectedSlot writes log.log.key) log.isWriteInitial := by
  cases slot : expectedSlot writes log.log.key with
  | none => simp
  | some value =>
    have written : log.log.key ∈ writtenKeys writes := mem_writtenKeys_of_isSome (by simp [slot])
    rw [keyIsInitial_of_mem writes log agree written]

end Append

/-! ### The invariant -/

/-- The state after the write logs `writes`: the initial and modified values of every key, and
the counters as sums over the written keys. -/
structure Tracks (state : StorageWritesDeduplicator K) (writes : List (StorageLogWithPreviousValue K)) :
    Prop where
  initialValues_eq : state.initialValues = expectedInitial writes
  modifiedKeyValues_eq : state.modifiedKeyValues = expectedSlot writes
  writes_eq : ∀ isWriteInitial, state.metrics.writes isWriteInitial =
    ∑ key ∈ writtenKeys writes,
      slotCount isWriteInitial (expectedSlot writes key) (keyIsInitial writes key)
  total_eq : state.metrics.totalUpdatedValuesSize =
    ∑ key ∈ writtenKeys writes, slotSize (expectedSlot writes key)

theorem tracks_new : Tracks (new : StorageWritesDeduplicator K) [] where
  initialValues_eq := rfl
  modifiedKeyValues_eq := rfl
  writes_eq isWriteInitial := by cases isWriteInitial <;> simp [new, writtenKeys, DeduplicatedWritesMetrics.default, DeduplicatedWritesMetrics.writes]
  total_eq := by simp [new, writtenKeys, DeduplicatedWritesMetrics.default]

section Step

variable {self after : StorageWritesDeduplicator K} {writes : List (StorageLogWithPreviousValue K)}
  {log : StorageLogWithPreviousValue K}

/-- Before a write whose kind agrees, the counters and the total hold what the key adds to them,
so the write cannot underflow. -/
theorem Tracks.covered (tracks : Tracks self writes) (agree : KindsAgree (writes ++ [log]))
    (value : ModifiedSlot) (modified : self.modifiedKeyValues log.log.key = some value) :
    1 ≤ self.metrics.writes log.isWriteInitial ∧
      value.size ≤ self.metrics.totalUpdatedValuesSize := by
  have slot : expectedSlot writes log.log.key = some value := by
    rw [← tracks.modifiedKeyValues_eq, modified]
  have written : log.log.key ∈ writtenKeys writes := mem_writtenKeys_of_isSome (by simp [slot])
  constructor
  · calc 1 = slotCount log.isWriteInitial (expectedSlot writes log.log.key)
          (keyIsInitial writes log.log.key) := by
          rw [slotCount_keyIsInitial writes log agree, slot, slotCount_some_self]
      _ ≤ _ := Finset.single_le_sum
          (f := fun key => slotCount log.isWriteInitial (expectedSlot writes key) (keyIsInitial writes key))
          (fun _ _ => Nat.zero_le _) written
      _ = _ := (tracks.writes_eq _).symm
  · calc value.size = slotSize (expectedSlot writes log.log.key) := by rw [slot, slotSize_some]
      _ ≤ _ := Finset.single_le_sum (f := fun key => slotSize (expectedSlot writes key))
          (fun _ _ => Nat.zero_le _) written
      _ = _ := tracks.total_eq.symm

/-- One write log keeps the invariant. -/
theorem Tracks.processed {update : Option (UpdateItem K)} (tracks : Tracks self writes)
    (agree : KindsAgree (writes ++ [log])) (processed : Processed self log after update) :
    Tracks after (writes ++ [log]) := by
  have initial : self.initialValueFor log = (expectedInitial writes log.log.key).getD log.previousValue := by
    rw [initialValueFor, tracks.initialValues_eq]
  have before : self.modifiedKeyValues log.log.key = expectedSlot writes log.log.key := by
    rw [tracks.modifiedKeyValues_eq]
  have modified : after.modifiedKeyValues = expectedSlot (writes ++ [log]) := by
    rw [processed.modifiedKeyValues_eq, expectedSlot_append_singleton, initial,
      tracks.modifiedKeyValues_eq]
  refine ⟨?_, modified, fun isWriteInitial => ?_, ?_⟩
  · rw [processed.initialValues_eq, recordInitial, expectedInitial_append_singleton, ← initial,
      tracks.initialValues_eq]
  · have step := processed.writes_add isWriteInitial
    have sums := sum_writtenKeys_append_singleton writes log (slotCount isWriteInitial)
      (slotCount_none isWriteInitial)
    rw [slotCount_keyIsInitial writes log agree] at sums
    rw [before, modified, tracks.writes_eq] at step
    omega
  · have step := processed.total_add
    have sums := sum_writtenKeys_append_singleton writes log (fun slot _ => slotSize slot)
      (fun _ => slotSize_none)
    rw [before, modified, tracks.total_eq] at step
    omega

end Step

/-! ### Whole runs -/

/-- The loop of `process_storage_logs` goes through over logs whose kinds agree with the writes
before them, and keeps the invariant. By induction over the logs. -/
theorem Tracks.foldlM_processStep (logs : List (StorageLogWithPreviousValue K)) :
    ∀ {self : StorageWritesDeduplicator K} {writes : List (StorageLogWithPreviousValue K)}
      (updates : List (UpdateItem K)), Tracks self writes → KindsAgree (writes ++ logs) →
      ∃ after added, logs.foldlM processStep (self, updates) = some (after, added) ∧
        Tracks after (writes ++ logs) := by
  induction logs with
  | nil =>
    intro self writes updates tracks _
    exact ⟨self, updates, rfl, by simpa using tracks⟩
  | cons log logs ih =>
    intro self writes updates tracks agree
    have agreeHere : KindsAgree (writes ++ [log]) :=
      agree.mono fun a mem => by simp at mem ⊢; tauto
    obtain ⟨next, update, processed⟩ := exists_processed self log (tracks.covered agreeHere)
    have stepped : processStep (self, updates) log = some (next, updates ++ update.toList) :=
      processStep_eq_some.mpr ⟨next, update, processLog_of_processed self log processed, rfl⟩
    obtain ⟨after, added, ran, tracked⟩ := ih (updates ++ update.toList)
      (tracks.processed agreeHere processed) (by simpa using agree)
    refine ⟨after, added, ?_, by simpa using tracked⟩
    rw [List.foldlM_cons, stepped, Option.bind_eq_bind, Option.bind_some, ran]

/-- `apply` goes through and keeps the invariant, over the write logs of the chunk. -/
theorem Tracks.apply {self : StorageWritesDeduplicator K} {writes : List (StorageLogWithPreviousValue K)}
    (tracks : Tracks self writes) (logs : List (StorageLogWithPreviousValue K))
    (agree : KindsAgree (writes ++ logs.filter fun log => log.log.isWrite)) :
    ∃ after, self.apply logs = some after ∧
      Tracks after (writes ++ logs.filter fun log => log.log.isWrite) := by
  obtain ⟨after, added, ran, tracked⟩ := Tracks.foldlM_processStep _ [] tracks agree
  refine ⟨after, ?_, tracked⟩
  rw [StorageWritesDeduplicator.apply, processStorageLogs_eq, ran, Option.map_some]

/-- `apply` over a sequence of chunks goes through and keeps the invariant. By induction over the
chunks. -/
theorem Tracks.foldlM_apply (chunks : List (List (StorageLogWithPreviousValue K))) :
    ∀ {self : StorageWritesDeduplicator K} {writes : List (StorageLogWithPreviousValue K)},
      Tracks self writes → KindsAgree (writes ++ batchWrites chunks) →
      ∃ after, chunks.foldlM StorageWritesDeduplicator.apply self = some after ∧
        Tracks after (writes ++ batchWrites chunks) := by
  induction chunks with
  | nil =>
    intro self writes tracks _
    exact ⟨self, rfl, by simpa [batchWrites] using tracks⟩
  | cons chunk chunks ih =>
    intro self writes tracks agree
    have split : batchWrites (chunk :: chunks) =
        chunk.filter (fun log => log.log.isWrite) ++ batchWrites chunks := by
      simp [batchWrites, List.filter_append]
    rw [split, ← List.append_assoc] at agree ⊢
    obtain ⟨next, applied, tracked⟩ :=
      tracks.apply chunk (agree.mono (List.subset_append_left _ _))
    obtain ⟨after, ran, trackedAll⟩ := ih tracked agree
    refine ⟨after, ?_, trackedAll⟩
    rw [List.foldlM_cons, applied, Option.bind_eq_bind, Option.bind_some, ran]

/-! ### The metrics -/

section Metrics

variable {writes : List (StorageLogWithPreviousValue K)}

theorem keyIsInitial_eq_true_iff (key : K) :
    keyIsInitial writes key = true ↔ keyKind writes key = some .initialWrite := by
  cases last : lastWrite writes key with
  | none => simp [keyIsInitial, keyKind, last]
  | some log => simp [keyIsInitial, keyKind, last, StorageLogWithPreviousValue.isWriteInitial]

/-- A written key that is not initially written is repeatedly written, for write logs only. -/
theorem keyIsInitial_eq_false_iff (onlyWrites : ∀ log ∈ writes, log.log.isWrite) {key : K}
    (written : key ∈ writtenKeys writes) :
    keyIsInitial writes key = false ↔ keyKind writes key = some .repeatedWrite := by
  obtain ⟨last, found⟩ := Option.ne_none_iff_exists'.mp
    (mt lastWrite_eq_none_iff.mp (not_not.mpr written))
  have isWrite := onlyWrites last (List.mem_reverse.mp (List.mem_of_find?_eq_some found))
  simp only [StorageLog.isWrite, bne_iff_ne, ne_eq] at isWrite
  simp only [keyIsInitial, keyKind, found, Option.map_some, Option.getD_some,
    StorageLogWithPreviousValue.isWriteInitial, Option.some.injEq]
  cases kind : last.log.kind <;> simp_all

/-- A counter kept as a sum over the written keys counts the modified keys of its kind. -/
theorem card_filter_keyKind (isWriteInitial : Bool) (kind : StorageLogKind)
    (ofKind : ∀ key ∈ writtenKeys writes,
      (keyIsInitial writes key = isWriteInitial ↔ keyKind writes key = some kind)) :
    ((modifiedKeys writes).filter fun key => keyKind writes key = some kind).card =
      ∑ key ∈ writtenKeys writes,
        slotCount isWriteInitial (expectedSlot writes key) (keyIsInitial writes key) := by
  rw [modifiedKeys, Finset.filter_filter, Finset.card_filter]
  refine Finset.sum_congr rfl fun key written => ?_
  simp only [slotCount, ofKind key written]

theorem sum_modifiedKeys_slotSize :
    ∑ key ∈ modifiedKeys writes, slotSize (expectedSlot writes key) =
      ∑ key ∈ writtenKeys writes, slotSize (expectedSlot writes key) := by
  refine Finset.sum_filter_of_ne fun key _ sized => ?_
  cases slot : expectedSlot writes key with
  | none => simp [slot] at sized
  | some value => rfl

/-- Over write logs only, the counters and the total of the invariant are the batch's metrics. -/
theorem Tracks.metrics_eq {self : StorageWritesDeduplicator K} (tracks : Tracks self writes)
    (onlyWrites : ∀ log ∈ writes, log.log.isWrite) : self.metrics = expectedMetrics writes := by
  have initial := tracks.writes_eq true
  have repeated := tracks.writes_eq false
  rw [← card_filter_keyKind true .initialWrite fun key _ => keyIsInitial_eq_true_iff key] at initial
  rw [← card_filter_keyKind false .repeatedWrite
    fun key written => keyIsInitial_eq_false_iff onlyWrites written] at repeated
  have total := tracks.total_eq
  rw [← sum_modifiedKeys_slotSize] at total
  simp only [DeduplicatedWritesMetrics.writes, if_true, Bool.false_eq_true, if_false] at initial repeated
  ext
  · exact initial
  · exact repeated
  · exact total

end Metrics

/-! ### The deduplicator tracks the batch -/

/-- `apply_on_empty_state` gives the metrics of the chunk's write logs, when kinds agree. -/
theorem applyOnEmptyState_eq (logs : List (StorageLogWithPreviousValue K))
    (agree : KindsAgree (logs.filter fun log => log.log.isWrite)) :
    applyOnEmptyState logs = some (expectedMetrics (logs.filter fun log => log.log.isWrite)) := by
  obtain ⟨state, applied, tracks⟩ := tracks_new.apply logs (by simpa using agree)
  have onlyWrites : ∀ log ∈ logs.filter (fun log => log.log.isWrite), log.log.isWrite :=
    fun log mem => (List.mem_filter.mp mem).2
  rw [applyOnEmptyState, applied, Option.map_some, (by simpa using tracks : Tracks state _).metrics_eq onlyWrites]

theorem apply_tracks_deduplicatedWrites (chunks : List (List (StorageLogWithPreviousValue K)))
    (agree : KindsAgree (batchWrites chunks)) :
    (∃ state, chunks.foldlM StorageWritesDeduplicator.apply new = some state ∧
        state.modifiedKeyValues = expectedSlot (batchWrites chunks) ∧
        state.metrics = expectedMetrics (batchWrites chunks)) ∧
      ∀ (self : StorageWritesDeduplicator K) (logs : List (StorageLogWithPreviousValue K)),
        (self.applyAndRollback logs).map Prod.snd = (self.apply logs).map (·.metrics) ∧
        ∀ after metrics, self.applyAndRollback logs = some (after, metrics) →
          after.modifiedKeyValues = self.modifiedKeyValues ∧ after.metrics = self.metrics := by
  refine ⟨?_, fun self logs => ⟨applyAndRollback_metrics self logs,
    fun _ _ rolled => applyAndRollback_restores rolled⟩⟩
  obtain ⟨state, ran, tracks⟩ := Tracks.foldlM_apply chunks tracks_new (by simpa using agree)
  rw [List.nil_append] at tracks
  have onlyWrites : ∀ log ∈ batchWrites chunks, log.log.isWrite :=
    fun log mem => (List.mem_filter.mp mem).2
  exact ⟨state, ran, tracks.modifiedKeyValues_eq, tracks.metrics_eq onlyWrites⟩

/-- Two chunks: key 1 is written and then written back, key 3 is written once, and a read of
key 2 is ignored. -/
def sampleChunks : List (List (StorageLogWithPreviousValue Nat)) :=
  [[⟨⟨.initialWrite, 1, 5⟩, 0⟩, ⟨⟨.read, 2, 9⟩, 9⟩], [⟨⟨.initialWrite, 1, 0⟩, 5⟩, ⟨⟨.repeatedWrite, 3, 7⟩, 2⟩]]

theorem apply_tracks_deduplicatedWrites_sample :
    KindsAgree (batchWrites sampleChunks) ∧
      ((∃ state, sampleChunks.foldlM StorageWritesDeduplicator.apply new = some state ∧
          state.modifiedKeyValues = expectedSlot (batchWrites sampleChunks) ∧
          state.metrics = expectedMetrics (batchWrites sampleChunks)) ∧
        ∀ (self : StorageWritesDeduplicator Nat) (logs : List (StorageLogWithPreviousValue Nat)),
          (self.applyAndRollback logs).map Prod.snd = (self.apply logs).map (·.metrics) ∧
          ∀ after metrics, self.applyAndRollback logs = some (after, metrics) →
            after.modifiedKeyValues = self.modifiedKeyValues ∧ after.metrics = self.metrics) :=
  ⟨by decide, apply_tracks_deduplicatedWrites sampleChunks (by decide)⟩

end StorageWritesDeduplicator

end ZksyncEra.Multivm
