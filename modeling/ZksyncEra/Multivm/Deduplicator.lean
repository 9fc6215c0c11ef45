import ZksyncEra.Writes.StateDiff
import ZksyncEra.Lib.Checked

/-!
In-flight deduplication of a batch's storage writes (`multivm/src/utils/deduplicator.rs`), and
the metrics it keeps (`DeduplicatedWritesMetrics`, `vm_interface`).

The deduplicator remembers the value each key had before its first write, and the keys whose
latest value differs from it, with that value and the size of its compressed pubdata. The counts
of such keys, by the kind of the write, and the total size are kept incrementally: each write
inserts, updates or removes its key and records how, so that `rollback` can undo the writes in
reverse order.

`StorageKey` is a type parameter `K`: only its equality is used. `H256` values are 256-bit words,
and `h256_to_u256` is the identity. A `HashMap` is a function to optional values, which is what
its `PartialEq` compares; the iteration order of `into_modified_key_values` (used by
`deduplicate_logs`) is not modelled. `usize` counters are natural numbers, and `-=` below zero is
`none`: the panic of a debug build, where a release build wraps. The two differ only on states no
run reaches: `Tracks.foldlM_processStep` shows that every run over write logs whose kinds agree
goes through. The additions stay far below `2 ^ 64` (a counter is at most the number of keys). A
failed `unwrap` is `none`.
-/

namespace ZksyncEra.Multivm

open MerkleTree Writes

/-! ### Storage logs -/

/-- `StorageLogKind`. -/
inductive StorageLogKind where
  | read
  | initialWrite
  | repeatedWrite
  deriving DecidableEq, Repr

/-- `StorageLog`. -/
structure StorageLog (K : Type) where
  kind : StorageLogKind
  key : K
  value : H256
  deriving DecidableEq, Repr

/-- `StorageLog::is_write`. -/
def StorageLog.isWrite {K : Type} (self : StorageLog K) : Bool :=
  self.kind != .read

/-- `StorageLogWithPreviousValue`. -/
structure StorageLogWithPreviousValue (K : Type) where
  log : StorageLog K
  previousValue : H256
  deriving DecidableEq, Repr

/-! ### Metrics -/

/-- `DeduplicatedWritesMetrics`. -/
structure DeduplicatedWritesMetrics where
  initialStorageWrites : Nat
  repeatedStorageWrites : Nat
  totalUpdatedValuesSize : Nat
  deriving DecidableEq, Repr

/-- `InitialStorageWrite::SERIALIZED_SIZE`. -/
def InitialStorageWrite.SERIALIZED_SIZE : Nat := 64

/-- `RepeatedStorageWrite::SERIALIZED_SIZE`. -/
def RepeatedStorageWrite.SERIALIZED_SIZE : Nat := 40

namespace DeduplicatedWritesMetrics

/-- `DeduplicatedWritesMetrics::default()`. -/
def default : DeduplicatedWritesMetrics := ⟨0, 0, 0⟩

/-- `size`, with `protocol_version.is_pre_boojum()` given as `isPreBoojum`. -/
def size (self : DeduplicatedWritesMetrics) (isPreBoojum : Bool) : Nat :=
  if isPreBoojum then
    self.initialStorageWrites * InitialStorageWrite.SERIALIZED_SIZE +
      self.repeatedStorageWrites * RepeatedStorageWrite.SERIALIZED_SIZE
  else
    self.totalUpdatedValuesSize + BYTES_PER_DERIVED_KEY.toNat * self.initialStorageWrites +
      BYTES_PER_ENUMERATION_INDEX.toNat * self.repeatedStorageWrites

/-- The counter `field_to_change` points to: the initial writes for an initial write, the
repeated writes otherwise. -/
def writes (self : DeduplicatedWritesMetrics) (isWriteInitial : Bool) : Nat :=
  if isWriteInitial then self.initialStorageWrites else self.repeatedStorageWrites

/-- `*field_to_change = count`. -/
def setWrites (self : DeduplicatedWritesMetrics) (isWriteInitial : Bool) (count : Nat) :
    DeduplicatedWritesMetrics :=
  if isWriteInitial then { self with initialStorageWrites := count }
  else { self with repeatedStorageWrites := count }

end DeduplicatedWritesMetrics

/-! ### The deduplicator -/

/-- `ModifiedSlot`. -/
structure ModifiedSlot where
  /-- Value of the slot after modification. -/
  value : H256
  /-- Size of pubdata update in bytes -/
  size : Nat
  deriving DecidableEq, Repr

/-- `UpdateType`. -/
inductive UpdateType where
  | remove (slot : ModifiedSlot)
  | update (slot : ModifiedSlot)
  | insert
  deriving DecidableEq, Repr

/-- `UpdateItem`. -/
structure UpdateItem (K : Type) where
  key : K
  updateType : UpdateType
  isWriteInitial : Bool
  deriving DecidableEq, Repr

/-- `StorageWritesDeduplicator`. -/
structure StorageWritesDeduplicator (K : Type) where
  initialValues : K → Option H256
  /-- stores the mapping of storage-slot key to its values and the tx number in block -/
  modifiedKeyValues : K → Option ModifiedSlot
  metrics : DeduplicatedWritesMetrics

namespace StorageWritesDeduplicator

variable {K : Type} [DecidableEq K]

/-- `StorageWritesDeduplicator::new`. -/
def new : StorageWritesDeduplicator K := ⟨fun _ => none, fun _ => none, .default⟩

/-- The body of the loop of `process_storage_logs` for one write log: the state after it, and
the update it records, if any. -/
def processLog (self : StorageWritesDeduplicator K) (log : StorageLogWithPreviousValue K) :
    Option (StorageWritesDeduplicator K × Option (UpdateItem K)) := do
  let key := log.log.key
  -- `self.initial_values.entry(key).or_insert(log.previous_value)`
  let initialValue := (self.initialValues key).getD log.previousValue
  let initialValues := Function.update self.initialValues key (some initialValue)
  let wasKeyModified := (self.modifiedKeyValues key).isSome
  let modifiedValue := if initialValue ≠ log.log.value then some log.log.value else none
  let isWriteInitial := log.log.kind == .initialWrite
  let metrics := self.metrics
  match wasKeyModified, modifiedValue with
  | true, none =>
    let value ← self.modifiedKeyValues key
    let count ← Checked.natSub (metrics.writes isWriteInitial) 1
    let totalSize ← Checked.natSub metrics.totalUpdatedValuesSize value.size
    pure (⟨initialValues, Function.update self.modifiedKeyValues key none,
        { metrics.setWrites isWriteInitial count with totalUpdatedValuesSize := totalSize }⟩,
      some ⟨key, .remove value, isWriteInitial⟩)
  | true, some newValue =>
    let valueSize := (← compressWithBestStrategy initialValue newValue).length
    let oldValue ← self.modifiedKeyValues key
    let totalSize ← Checked.natSub metrics.totalUpdatedValuesSize oldValue.size
    pure (⟨initialValues,
        Function.update self.modifiedKeyValues key (some ⟨newValue, valueSize⟩),
        { metrics with totalUpdatedValuesSize := totalSize + valueSize }⟩,
      some ⟨key, .update oldValue, isWriteInitial⟩)
  | false, some newValue =>
    let valueSize := (← compressWithBestStrategy initialValue newValue).length
    pure (⟨initialValues,
        Function.update self.modifiedKeyValues key (some ⟨newValue, valueSize⟩),
        { metrics.setWrites isWriteInitial (metrics.writes isWriteInitial + 1) with
          totalUpdatedValuesSize := metrics.totalUpdatedValuesSize + valueSize }⟩,
      some ⟨key, .insert, isWriteInitial⟩)
  | false, none => pure (⟨initialValues, self.modifiedKeyValues, metrics⟩, none)

/-- `process_storage_logs`: the write logs in order, with the updates they record. -/
def processStorageLogs (self : StorageWritesDeduplicator K)
    (logs : List (StorageLogWithPreviousValue K)) :
    Option (StorageWritesDeduplicator K × List (UpdateItem K)) :=
  (logs.filter fun log => log.log.isWrite).foldlM
    (fun (state, updates) log => do
      let (state, update) ← state.processLog log
      pure (state, updates ++ update.toList))
    (self, [])

/-- One step of `rollback`: undoes one recorded update. -/
def rollbackItem (self : StorageWritesDeduplicator K) (item : UpdateItem K) :
    Option (StorageWritesDeduplicator K) := do
  let metrics := self.metrics
  match item.updateType with
  | .insert =>
    let value ← self.modifiedKeyValues item.key
    let count ← Checked.natSub (metrics.writes item.isWriteInitial) 1
    let totalSize ← Checked.natSub metrics.totalUpdatedValuesSize value.size
    pure { self with
      modifiedKeyValues := Function.update self.modifiedKeyValues item.key none
      metrics := { metrics.setWrites item.isWriteInitial count with
        totalUpdatedValuesSize := totalSize } }
  | .update value =>
    let oldValue ← self.modifiedKeyValues item.key
    let totalSize ← Checked.natSub (metrics.totalUpdatedValuesSize + value.size) oldValue.size
    pure { self with
      modifiedKeyValues := Function.update self.modifiedKeyValues item.key (some value)
      metrics := { metrics with totalUpdatedValuesSize := totalSize } }
  | .remove value =>
    pure { self with
      modifiedKeyValues := Function.update self.modifiedKeyValues item.key (some value)
      metrics := { metrics.setWrites item.isWriteInitial
          (metrics.writes item.isWriteInitial + 1) with
        totalUpdatedValuesSize := metrics.totalUpdatedValuesSize + value.size } }

/-- `rollback`: undoes the updates, the last one first. -/
def rollback (self : StorageWritesDeduplicator K) (updates : List (UpdateItem K)) :
    Option (StorageWritesDeduplicator K) :=
  updates.reverse.foldlM rollbackItem self

/-- `apply`: applies storage logs to the state. -/
def apply (self : StorageWritesDeduplicator K) (logs : List (StorageLogWithPreviousValue K)) :
    Option (StorageWritesDeduplicator K) :=
  (self.processStorageLogs logs).map Prod.fst

/-- `apply_and_rollback`: the metrics as if the logs were applied, and the state after the
rollback. -/
def applyAndRollback (self : StorageWritesDeduplicator K)
    (logs : List (StorageLogWithPreviousValue K)) :
    Option (StorageWritesDeduplicator K × DeduplicatedWritesMetrics) := do
  let (state, updates) ← self.processStorageLogs logs
  let metrics := state.metrics
  let state ← state.rollback updates
  pure (state, metrics)

/-- `apply_on_empty_state`: the metrics of the logs applied to a new deduplicator. -/
def applyOnEmptyState (logs : List (StorageLogWithPreviousValue K)) :
    Option DeduplicatedWritesMetrics :=
  ((new : StorageWritesDeduplicator K).apply logs).map (·.metrics)

end StorageWritesDeduplicator

end ZksyncEra.Multivm
