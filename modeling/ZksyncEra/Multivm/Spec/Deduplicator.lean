import ZksyncEra.Multivm.Deduplicator
import ZksyncEra.Writes.Spec.Compression

/-!
The deduplicator tracks the batch's writes exactly, and `apply_and_rollback` leaves it as it was.

Rollback: each write log changes the modified values and the metrics in one of three recorded
ways, and undoing the recorded update restores both (`rollbackItem_processLog`); `initial_values`
is not restored, and nothing the rollback does reads it (`rollbackItem_withInitialValues`). By
induction over the logs, undoing all updates in reverse order restores the state before the logs
(`rollback_processStorageLogs`), for every state.

Tracking: after a sequence of write logs from a new deduplicator, in which each key is written
with one kind only, the initial values are the previous values of the first writes, the modified
values are the last values that differ from them, with the sizes of their compression, and the
metrics count those keys by kind and add their sizes (`Tracks`). One write keeps this
(`Tracks.processLog`): only its key changes, and the counts and the sum over the written keys
change by that key's contribution.
-/

namespace ZksyncEra.Multivm

open MerkleTree Writes

attribute [ext] DeduplicatedWritesMetrics

namespace DeduplicatedWritesMetrics

variable (self : DeduplicatedWritesMetrics) (isWriteInitial : Bool) (count : Nat)

@[simp] theorem writes_setWrites : (self.setWrites isWriteInitial count).writes isWriteInitial = count := by
  cases isWriteInitial <;> rfl

@[simp] theorem writes_setWrites_of_ne {other : Bool} (differ : other ≠ isWriteInitial) :
    (self.setWrites isWriteInitial count).writes other = self.writes other := by
  cases isWriteInitial <;> cases other <;> first | rfl | exact absurd rfl differ

@[simp] theorem totalUpdatedValuesSize_setWrites :
    (self.setWrites isWriteInitial count).totalUpdatedValuesSize = self.totalUpdatedValuesSize := by
  cases isWriteInitial <;> rfl

@[simp] theorem setWrites_setWrites (other : Nat) :
    (self.setWrites isWriteInitial count).setWrites isWriteInitial other =
      self.setWrites isWriteInitial other := by
  cases isWriteInitial <;> rfl

@[simp] theorem setWrites_writes : self.setWrites isWriteInitial (self.writes isWriteInitial) = self := by
  cases isWriteInitial <;> rfl

/-! The metrics with a new total size, as the code builds them with a record update. -/

variable (total : Nat)

@[simp] theorem writes_withTotal :
    { self with totalUpdatedValuesSize := total }.writes isWriteInitial = self.writes isWriteInitial :=
  rfl

@[simp] theorem setWrites_withTotal :
    { self with totalUpdatedValuesSize := total }.setWrites isWriteInitial count =
      { self.setWrites isWriteInitial count with totalUpdatedValuesSize := total } := by
  cases isWriteInitial <;> rfl

end DeduplicatedWritesMetrics

/-- `log.kind == StorageLogKind::InitialWrite`, which picks the counter a write changes. -/
def StorageLogWithPreviousValue.isWriteInitial {K : Type} (log : StorageLogWithPreviousValue K) :
    Bool :=
  log.log.kind == .initialWrite

namespace StorageWritesDeduplicator

variable {K : Type} [DecidableEq K]

/-! ### One write -/

section Step

variable (self : StorageWritesDeduplicator K) (log : StorageLogWithPreviousValue K)

/-- The initial value of the log's key once the log is seen: the one recorded, or else the log's
previous value. -/
def initialValueFor : H256 := (self.initialValues log.log.key).getD log.previousValue

/-- `initial_values` once the log is seen. -/
def recordInitial : K → Option H256 :=
  Function.update self.initialValues log.log.key (some (self.initialValueFor log))

/-- What one write log can do, one case per arm of the match in `process_storage_logs`. -/
inductive Processed : StorageWritesDeduplicator K → Option (UpdateItem K) → Prop
  /-- A modified key back at its initial value is removed. -/
  | remove (value : ModifiedSlot)
      (modified : self.modifiedKeyValues log.log.key = some value)
      (initial : self.initialValueFor log = log.log.value)
      (counted : 1 ≤ self.metrics.writes log.isWriteInitial)
      (sized : value.size ≤ self.metrics.totalUpdatedValuesSize) :
      Processed ⟨self.recordInitial log, Function.update self.modifiedKeyValues log.log.key none,
          { self.metrics.setWrites log.isWriteInitial (self.metrics.writes log.isWriteInitial - 1) with
            totalUpdatedValuesSize := self.metrics.totalUpdatedValuesSize - value.size }⟩
        (some ⟨log.log.key, .remove value, log.isWriteInitial⟩)
  /-- A modified key written again away from its initial value gets the new value. -/
  | update (old : ModifiedSlot) (bytes : List UInt8)
      (modified : self.modifiedKeyValues log.log.key = some old)
      (changed : self.initialValueFor log ≠ log.log.value)
      (compressed : compressWithBestStrategy (self.initialValueFor log) log.log.value = some bytes)
      (sized : old.size ≤ self.metrics.totalUpdatedValuesSize) :
      Processed ⟨self.recordInitial log,
          Function.update self.modifiedKeyValues log.log.key (some ⟨log.log.value, bytes.length⟩),
          { self.metrics with
            totalUpdatedValuesSize := self.metrics.totalUpdatedValuesSize - old.size + bytes.length }⟩
        (some ⟨log.log.key, .update old, log.isWriteInitial⟩)
  /-- An unmodified key written away from its initial value is inserted. -/
  | insert (bytes : List UInt8)
      (unmodified : self.modifiedKeyValues log.log.key = none)
      (changed : self.initialValueFor log ≠ log.log.value)
      (compressed : compressWithBestStrategy (self.initialValueFor log) log.log.value = some bytes) :
      Processed ⟨self.recordInitial log,
          Function.update self.modifiedKeyValues log.log.key (some ⟨log.log.value, bytes.length⟩),
          { self.metrics.setWrites log.isWriteInitial (self.metrics.writes log.isWriteInitial + 1) with
            totalUpdatedValuesSize := self.metrics.totalUpdatedValuesSize + bytes.length }⟩
        (some ⟨log.log.key, .insert, log.isWriteInitial⟩)
  /-- An unmodified key written with its initial value stays unmodified. -/
  | unchanged (unmodified : self.modifiedKeyValues log.log.key = none)
      (initial : self.initialValueFor log = log.log.value) :
      Processed ⟨self.recordInitial log, self.modifiedKeyValues, self.metrics⟩ none

omit [DecidableEq K] in
theorem getD_initialValues :
    (self.initialValues log.log.key).getD log.previousValue = self.initialValueFor log := rfl

theorem recordInitial_of_initial (initial : self.initialValueFor log = log.log.value) :
    self.recordInitial log = Function.update self.initialValues log.log.key (some log.log.value) := by
  rw [recordInitial, initial]

theorem processLog_of_processed {after : StorageWritesDeduplicator K}
    {update : Option (UpdateItem K)} (processed : Processed self log after update) :
    self.processLog log = some (after, update) := by
  cases processed with
  | remove value modified initial counted sized =>
    simp only [StorageLogWithPreviousValue.isWriteInitial] at counted ⊢
    simp only [processLog, modified, Option.isSome_some, getD_initialValues, recordInitial, initial,
      ne_eq, not_true_eq_false, if_false, Option.bind_eq_bind, Option.bind_some,
      Checked.natSub_eq_some counted, Checked.natSub_eq_some sized, Option.pure_def]
  | update old bytes modified changed compressed sized =>
    simp only [processLog, modified, Option.isSome_some, getD_initialValues, recordInitial, ne_eq,
      changed, not_false_eq_true, if_true, Option.bind_eq_bind, compressed, Option.bind_some,
      Checked.natSub_eq_some sized, Option.pure_def, StorageLogWithPreviousValue.isWriteInitial]
  | insert bytes unmodified changed compressed =>
    simp only [processLog, unmodified, Option.isSome_none, getD_initialValues, recordInitial, ne_eq,
      changed, not_false_eq_true, if_true, Option.bind_eq_bind, compressed, Option.bind_some,
      Option.pure_def, StorageLogWithPreviousValue.isWriteInitial]
  | unchanged unmodified initial =>
    simp only [processLog, unmodified, Option.isSome_none, getD_initialValues, recordInitial, ne_eq,
      initial, not_true_eq_false, if_false, Option.pure_def]

theorem processed_of_processLog {after : StorageWritesDeduplicator K}
    {update : Option (UpdateItem K)} (processed : self.processLog log = some (after, update)) :
    Processed self log after update := by
  -- the arm of the match: whether the key is modified, and whether the value is the initial one
  rcases modified : self.modifiedKeyValues log.log.key with _ | value <;>
    by_cases initial : self.initialValueFor log = log.log.value
  · simp only [processLog, modified, Option.isSome_none, getD_initialValues, ne_eq, initial,
      not_true_eq_false, if_false, Option.pure_def, Option.some.injEq, Prod.mk.injEq] at processed
    obtain ⟨rfl, rfl⟩ := processed
    rw [← recordInitial_of_initial self log initial]
    exact .unchanged modified initial
  · cases compressed : compressWithBestStrategy (self.initialValueFor log) log.log.value with
    | none =>
      simp [processLog, modified, getD_initialValues, initial, compressed] at processed
    | some bytes =>
      simp only [processLog, modified, Option.isSome_none, getD_initialValues, ne_eq, initial,
        not_false_eq_true, if_true, Option.bind_eq_bind, compressed, Option.bind_some,
        Option.pure_def, Option.some.injEq, Prod.mk.injEq] at processed
      obtain ⟨rfl, rfl⟩ := processed
      exact .insert bytes modified initial compressed
  · cases counted : Checked.natSub (self.metrics.writes (log.log.kind == .initialWrite)) 1 with
    | none =>
      simp [processLog, modified, getD_initialValues, initial, counted] at processed
    | some count =>
    cases sized : Checked.natSub self.metrics.totalUpdatedValuesSize value.size with
    | none =>
      simp [processLog, modified, getD_initialValues, initial, counted, sized] at processed
    | some totalSize =>
    obtain ⟨atLeastOne, rfl⟩ := Checked.natSub_eq_some_iff.mp counted
    obtain ⟨atMost, rfl⟩ := Checked.natSub_eq_some_iff.mp sized
    simp only [processLog, modified, Option.isSome_some, getD_initialValues, ne_eq, initial,
      not_true_eq_false, if_false, Option.bind_eq_bind, Option.bind_some, counted, sized,
      Option.pure_def, Option.some.injEq, Prod.mk.injEq] at processed
    obtain ⟨rfl, rfl⟩ := processed
    rw [← recordInitial_of_initial self log initial]
    exact .remove value modified initial atLeastOne atMost
  · cases compressed : compressWithBestStrategy (self.initialValueFor log) log.log.value with
    | none =>
      simp [processLog, modified, getD_initialValues, initial, compressed] at processed
    | some bytes =>
    cases sized : Checked.natSub self.metrics.totalUpdatedValuesSize value.size with
    | none =>
      simp [processLog, modified, getD_initialValues, initial, compressed, sized] at processed
    | some totalSize =>
    obtain ⟨atMost, rfl⟩ := Checked.natSub_eq_some_iff.mp sized
    simp only [processLog, modified, Option.isSome_some, getD_initialValues, ne_eq, initial,
      not_false_eq_true, if_true, Option.bind_eq_bind, compressed, Option.bind_some, sized,
      Option.pure_def, Option.some.injEq, Prod.mk.injEq] at processed
    obtain ⟨rfl, rfl⟩ := processed
    exact .update value bytes modified initial compressed atMost

end Step

/-! ### Rollback -/

/-- Rollback neither reads nor writes the initial values. -/
theorem rollbackItem_withInitialValues (self : StorageWritesDeduplicator K)
    (initialValues : K → Option H256) (item : UpdateItem K) :
    rollbackItem { self with initialValues := initialValues } item =
      (rollbackItem self item).map fun state => { state with initialValues := initialValues } := by
  cases item with
  | mk key updateType isWriteInitial =>
    cases updateType <;> simp only [rollbackItem] <;>
      cases self.modifiedKeyValues key <;> simp

theorem rollbackItem_processLog {self after : StorageWritesDeduplicator K}
    {log : StorageLogWithPreviousValue K} {item : UpdateItem K}
    (processed : Processed self log after (some item)) :
    after.rollbackItem item = some { self with initialValues := after.initialValues } := by
  cases processed with
  | remove value modified initial counted sized =>
    simp [rollbackItem, modified, Nat.sub_add_cancel counted, Nat.sub_add_cancel sized]
  | update old bytes modified changed compressed sized =>
    have total : self.metrics.totalUpdatedValuesSize - old.size + bytes.length + old.size =
        self.metrics.totalUpdatedValuesSize + bytes.length := by omega
    simp [rollbackItem, modified, total]
  | insert bytes unmodified changed compressed =>
    simp [rollbackItem, unmodified]

/-- Undoing what one write log recorded restores the modified values and the metrics; the initial
values are whatever the rollback starts from. -/
theorem rollback_processed {self after : StorageWritesDeduplicator K}
    {log : StorageLogWithPreviousValue K} {update : Option (UpdateItem K)}
    (processed : Processed self log after update) (initialValues : K → Option H256) :
    update.toList.foldlM rollbackItem { after with initialValues := initialValues } =
      some { self with initialValues := initialValues } := by
  cases update with
  | none =>
    cases processed with
    | unchanged => rfl
  | some item =>
    simp only [Option.toList_some, List.foldlM_cons, List.foldlM_nil, rollbackItem_withInitialValues,
      rollbackItem_processLog processed, Option.map_some, Option.bind_eq_bind, Option.bind_some,
      Option.pure_def]

/-! ### The loop of `process_storage_logs` -/

/-- The body of the loop of `process_storage_logs`, over the state and the updates so far. -/
def processStep : StorageWritesDeduplicator K × List (UpdateItem K) →
    StorageLogWithPreviousValue K → Option (StorageWritesDeduplicator K × List (UpdateItem K)) :=
  fun (state, updates) log => do
    let (state, update) ← state.processLog log
    pure (state, updates ++ update.toList)

theorem processStorageLogs_eq (self : StorageWritesDeduplicator K)
    (logs : List (StorageLogWithPreviousValue K)) :
    self.processStorageLogs logs = (logs.filter fun log => log.log.isWrite).foldlM processStep (self, []) :=
  rfl

theorem processStep_eq_some {self : StorageWritesDeduplicator K} {updates : List (UpdateItem K)}
    {log : StorageLogWithPreviousValue K} {result : StorageWritesDeduplicator K × List (UpdateItem K)} :
    processStep (self, updates) log = some result ↔
      ∃ after update, self.processLog log = some (after, update) ∧
        result = (after, updates ++ update.toList) := by
  cases processed : self.processLog log with
  | none => simp [processStep, processed]
  | some step =>
    obtain ⟨after, update⟩ := step
    simp [processStep, processed, eq_comm]

/-- Rolling back the updates a run of the loop added restores the state the run started from, up
to the initial values. By induction over the logs: each log's updates are undone after those of
the logs behind it. -/
theorem rollback_foldlM_processStep (logs : List (StorageLogWithPreviousValue K)) :
    ∀ {self after : StorageWritesDeduplicator K} {updates result : List (UpdateItem K)},
      logs.foldlM processStep (self, updates) = some (after, result) →
      ∃ added, result = updates ++ added ∧ ∀ initialValues : K → Option H256,
        added.reverse.foldlM rollbackItem { after with initialValues := initialValues } =
          some { self with initialValues := initialValues } := by
  induction logs with
  | nil =>
    intro self after updates result ran
    simp only [List.foldlM_nil, Option.pure_def, Option.some.injEq, Prod.mk.injEq] at ran
    obtain ⟨rfl, rfl⟩ := ran
    exact ⟨[], (List.append_nil _).symm, fun _ => rfl⟩
  | cons log logs ih =>
    intro self after updates result ran
    rw [List.foldlM_cons] at ran
    obtain ⟨⟨middle, middleUpdates⟩, stepped, rest⟩ := Option.bind_eq_some_iff.mp ran
    obtain ⟨next, update, processed, same⟩ := processStep_eq_some.mp stepped
    obtain ⟨rfl, rfl⟩ := Prod.mk.inj same
    obtain ⟨added, rfl, undone⟩ := ih rest
    refine ⟨update.toList ++ added, List.append_assoc _ _ _, fun initialValues => ?_⟩
    rw [List.reverse_append, List.foldlM_append, undone initialValues]
    simpa using rollback_processed (processed_of_processLog self log processed) initialValues

/-- `apply_and_rollback` is `apply` followed by a rollback that restores the modified values and
the metrics: it keeps the initial values the logs recorded, and returns the metrics after the
logs. -/
theorem applyAndRollback_eq (self : StorageWritesDeduplicator K)
    (logs : List (StorageLogWithPreviousValue K)) :
    self.applyAndRollback logs = (self.processStorageLogs logs).map fun (after, _) =>
      ({ self with initialValues := after.initialValues }, after.metrics) := by
  cases ran : self.processStorageLogs logs with
  | none => simp [applyAndRollback, ran]
  | some result =>
    obtain ⟨after, updates⟩ := result
    rw [processStorageLogs_eq] at ran
    obtain ⟨added, rfl, undone⟩ := rollback_foldlM_processStep _ ran
    -- the rollback starts from the state after the logs, with its own initial values
    have restored : updates.reverse.foldlM rollbackItem after =
        some { self with initialValues := after.initialValues } := undone after.initialValues
    simp only [applyAndRollback, processStorageLogs_eq, ran, rollback, restored, Option.bind_eq_bind,
      Option.bind_some, Option.pure_def, Option.map_some]

/-- `apply_and_rollback` returns the metrics `apply` would produce. -/
theorem applyAndRollback_metrics (self : StorageWritesDeduplicator K)
    (logs : List (StorageLogWithPreviousValue K)) :
    (self.applyAndRollback logs).map Prod.snd = (self.apply logs).map (·.metrics) := by
  rw [applyAndRollback_eq, apply, Option.map_map, Option.map_map]
  rfl

/-- `apply_and_rollback` leaves the modified values and the metrics as they were. -/
theorem applyAndRollback_restores {self after : StorageWritesDeduplicator K}
    {logs : List (StorageLogWithPreviousValue K)} {metrics : DeduplicatedWritesMetrics}
    (rolled : self.applyAndRollback logs = some (after, metrics)) :
    after.modifiedKeyValues = self.modifiedKeyValues ∧ after.metrics = self.metrics := by
  rw [applyAndRollback_eq] at rolled
  obtain ⟨⟨state, updates⟩, -, restored⟩ := Option.map_eq_some_iff.mp rolled
  obtain ⟨rfl, -⟩ := Prod.mk.inj restored
  exact ⟨rfl, rfl⟩

end StorageWritesDeduplicator

end ZksyncEra.Multivm
