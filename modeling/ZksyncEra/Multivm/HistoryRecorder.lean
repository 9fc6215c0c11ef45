import Mathlib

/-!
The history recorder of the legacy VM (`vm_latest/old_vm/history_recorder.rs`): a component
that returns, for each change applied to it, the record that undoes the change, and a log of
these undo records by timestamp, so that the VM can roll every component back to a timestamp.

Only `HistoryRecorder<T, HistoryEnabled>` is modelled: with `HistoryDisabled` there is no
history and nothing to roll back. The history is the `Vec` of `(timestamp, undo record)` pairs
with its last entry first, so that a `push` is a `cons` and the rollback loop recurses on it. A
`Vec` of the components (the data of a `FramedStack`, a list of frames) is a list with its last
entry last. A `HashMap` is an `AList`, and a `U256` a `BitVec 256`. A panic (the assertion on
timestamps, an `unwrap` of a `pop` from an empty vector) is `none`.
-/

namespace ZksyncEra.Multivm

/-- `zkevm_opcode_defs::TIME_DELTA_PER_CYCLE` (of `zk_evm_1_5_0`): a cycle of the VM takes four
timestamps, and the accesses within a cycle use the ones in between. -/
def TIME_DELTA_PER_CYCLE : Nat := 4

/-- `normalize_timestamp`: the first timestamp of the cycle. -/
def normalizeTimestamp (timestamp : Nat) : Nat :=
  timestamp - timestamp % TIME_DELTA_PER_CYCLE

/-- `WithHistory`: applying a record to a component gives the record that undoes it and a
value. -/
class WithHistory (T : Type) (HistoryRecord ReturnValue : outParam Type) where
  applyHistoricRecord : T → HistoryRecord → Option (T × HistoryRecord × ReturnValue)

/-- `HistoryRecorder<T, HistoryEnabled>`. -/
structure HistoryRecorder (T R : Type) where
  inner : T
  history : List (Nat × R)

namespace HistoryRecorder

variable {T R V : Type} [WithHistory T R V]

/-- `HistoryRecorder::from_inner`. -/
def fromInner (inner : T) : HistoryRecorder T R := ⟨inner, []⟩

/-- `HistoryRecorder::apply_historic_record`. The undo record is logged under the start of the
timestamp's cycle, which may not be below the last logged timestamp. -/
def applyHistoricRecord (self : HistoryRecorder T R) (item : R) (timestamp : Nat) :
    Option (HistoryRecorder T R × V) := do
  let (inner, reversedItem, returnValue) ← WithHistory.applyHistoricRecord self.inner item
  let lastRecordedTimestamp := (self.history.head?.map (·.1)).getD 0
  let timestamp := normalizeTimestamp timestamp
  -- `assert!(last_recorded_timestamp <= timestamp, "Timestamps are not monotonic")`
  if lastRecordedTimestamp ≤ timestamp then
    pure (⟨inner, (timestamp, reversedItem) :: self.history⟩, returnValue)
  else
    none

/-- `HistoryRecorder::delete_history`. -/
def deleteHistory (self : HistoryRecorder T R) : HistoryRecorder T R := { self with history := [] }

/-- The loop of `rollback_to_timestamp`: undo the last record while its timestamp is at least
`timestamp`. -/
def rollbackLoop (timestamp : Nat) : T → List (Nat × R) → Option (T × List (Nat × R))
  | inner, [] => some (inner, [])
  | inner, (itemTimestamp, item) :: rest =>
    if timestamp ≤ itemTimestamp then do
      let (inner, _) ← WithHistory.applyHistoricRecord inner item
      rollbackLoop timestamp inner rest
    else
      some (inner, (itemTimestamp, item) :: rest)

/-- `HistoryRecorder::rollback_to_timestamp`. -/
def rollbackToTimestamp (self : HistoryRecorder T R) (timestamp : Nat) :
    Option (HistoryRecorder T R) :=
  (rollbackLoop timestamp self.inner self.history).map fun (inner, history) => ⟨inner, history⟩

end HistoryRecorder

/-! ### Vectors -/

/-- `VectorHistoryEvent`. -/
inductive VectorHistoryEvent (X : Type) where
  | push (x : X)
  | pop
  deriving DecidableEq, Repr

/-- `impl WithHistory for Vec<T>`: popping from an empty vector panics. -/
instance {X : Type} : WithHistory (List X) (VectorHistoryEvent X) (Option X) where
  applyHistoricRecord self
    | .pop => do
      let poppedItem ← self.getLast?
      pure (self.dropLast, .push poppedItem, some poppedItem)
    | .push x => some (self ++ [x], .pop, none)

namespace VectorHistoryEvent

variable {X : Type}

@[simp]
theorem apply_push (self : List X) (x : X) :
    WithHistory.applyHistoricRecord self (push x) = some (self ++ [x], pop, none) := rfl

@[simp]
theorem apply_pop (self : List X) :
    WithHistory.applyHistoricRecord self (pop : VectorHistoryEvent X) =
      self.getLast?.map fun x => (self.dropLast, push x, some x) := by
  change self.getLast?.bind _ = _
  cases self.getLast? <;> rfl

end VectorHistoryEvent

namespace HistoryRecorder

variable {X : Type}

/-- `HistoryRecorder<Vec<T>, H>::push`. -/
def push (self : HistoryRecorder (List X) (VectorHistoryEvent X)) (elem : X) (timestamp : Nat) :
    Option (HistoryRecorder (List X) (VectorHistoryEvent X)) :=
  (self.applyHistoricRecord (.push elem) timestamp).map (·.1)

/-- `HistoryRecorder<Vec<T>, H>::pop`. -/
def pop (self : HistoryRecorder (List X) (VectorHistoryEvent X)) (timestamp : Nat) :
    Option (HistoryRecorder (List X) (VectorHistoryEvent X) × X) := do
  let (self, poppedItem) ← self.applyHistoricRecord .pop timestamp
  let poppedItem ← poppedItem
  pure (self, poppedItem)

end HistoryRecorder

/-! ### Hash maps -/

/-- `HashMapHistoryEvent`. -/
structure HashMapHistoryEvent (K V : Type) where
  key : K
  value : Option V
  deriving DecidableEq, Repr

/-- `impl WithHistory for HashMap<K, V>`: `Some` inserts, `None` removes, and the undo record
holds the previous value. -/
instance {K V : Type} [DecidableEq K] :
    WithHistory (AList fun _ : K => V) (HashMapHistoryEvent K V) (Option V) where
  applyHistoricRecord self item :=
    let prevValue := self.lookup item.key
    let self := match item.value with
      | some x => self.insert item.key x
      | none => self.erase item.key
    some (self, ⟨item.key, prevValue⟩, prevValue)

namespace HashMapHistoryEvent

variable {K V : Type} [DecidableEq K]

@[simp]
theorem apply_insert (self : AList fun _ : K => V) (key : K) (x : V) :
    WithHistory.applyHistoricRecord self (⟨key, some x⟩ : HashMapHistoryEvent K V) =
      some (self.insert key x, ⟨key, self.lookup key⟩, self.lookup key) := rfl

@[simp]
theorem apply_remove (self : AList fun _ : K => V) (key : K) :
    WithHistory.applyHistoricRecord self (⟨key, none⟩ : HashMapHistoryEvent K V) =
      some (self.erase key, ⟨key, self.lookup key⟩, self.lookup key) := rfl

end HashMapHistoryEvent

/-- `HistoryRecorder<HashMap<K, V>, H>::insert`. -/
def HistoryRecorder.insert {K V : Type} [DecidableEq K]
    (self : HistoryRecorder (AList fun _ : K => V) (HashMapHistoryEvent K V)) (key : K)
    (value : V) (timestamp : Nat) :
    Option (HistoryRecorder (AList fun _ : K => V) (HashMapHistoryEvent K V) × Option V) :=
  self.applyHistoricRecord ⟨key, some value⟩ timestamp

/-! ### Framed stacks -/

/-- `FramedStack`: a stack of frames over one data vector, each frame given by its start. -/
structure FramedStack (X : Type) where
  data : List X
  frameStartIndices : List Nat
  deriving DecidableEq, Repr

/-- `impl Default for FramedStack`: one frame, at the start. -/
instance {X : Type} : Inhabited (FramedStack X) := ⟨⟨[], [0]⟩⟩

/-- `FramedStackEvent`. -/
inductive FramedStackEvent (X : Type) where
  | push (x : X)
  | pop
  | pushFrame (i : Nat)
  | mergeFrame
  deriving DecidableEq, Repr

/-- `impl WithHistory for FramedStack<T>`: popping an empty data vector or frame list panics. -/
instance {X : Type} : WithHistory (FramedStack X) (FramedStackEvent X) Unit where
  applyHistoricRecord self
    | .push x => some (⟨self.data ++ [x], self.frameStartIndices⟩, .pop, ())
    | .pop => do
      let x ← self.data.getLast?
      pure (⟨self.data.dropLast, self.frameStartIndices⟩, .push x, ())
    | .pushFrame i => some (⟨self.data, self.frameStartIndices ++ [i]⟩, .mergeFrame, ())
    | .mergeFrame => do
      let pos ← self.frameStartIndices.getLast?
      pure (⟨self.data, self.frameStartIndices.dropLast⟩, .pushFrame pos, ())

namespace FramedStackEvent

variable {X : Type}

@[simp]
theorem apply_push (self : FramedStack X) (x : X) :
    WithHistory.applyHistoricRecord self (push x) =
      some (⟨self.data ++ [x], self.frameStartIndices⟩, pop, ()) := rfl

@[simp]
theorem apply_pop (self : FramedStack X) :
    WithHistory.applyHistoricRecord self (pop : FramedStackEvent X) =
      self.data.getLast?.map fun x => (⟨self.data.dropLast, self.frameStartIndices⟩, push x, ()) := by
  change self.data.getLast?.bind _ = _
  cases self.data.getLast? <;> rfl

@[simp]
theorem apply_pushFrame (self : FramedStack X) (i : Nat) :
    WithHistory.applyHistoricRecord self (pushFrame i : FramedStackEvent X) =
      some (⟨self.data, self.frameStartIndices ++ [i]⟩, mergeFrame, ()) := rfl

@[simp]
theorem apply_mergeFrame (self : FramedStack X) :
    WithHistory.applyHistoricRecord self (mergeFrame : FramedStackEvent X) =
      self.frameStartIndices.getLast?.map fun pos =>
        (⟨self.data, self.frameStartIndices.dropLast⟩, pushFrame pos, ()) := by
  change self.frameStartIndices.getLast?.bind _ = _
  cases self.frameStartIndices.getLast? <;> rfl

end FramedStackEvent

namespace HistoryRecorder

variable {X : Type}

/-- `HistoryRecorder<FramedStack<T>, H>::push_to_frame`. -/
def pushToFrame (self : HistoryRecorder (FramedStack X) (FramedStackEvent X)) (x : X)
    (timestamp : Nat) : Option (HistoryRecorder (FramedStack X) (FramedStackEvent X)) :=
  (self.applyHistoricRecord (.push x) timestamp).map (·.1)

/-- `count` pops of the data vector, all at `timestamp`. -/
def popTimes (self : HistoryRecorder (FramedStack X) (FramedStackEvent X)) (timestamp : Nat) :
    Nat → Option (HistoryRecorder (FramedStack X) (FramedStackEvent X))
  | 0 => some self
  | count + 1 => do
    let (self, _) ← self.applyHistoricRecord .pop timestamp
    self.popTimes timestamp count

/-- `HistoryRecorder<FramedStack<T>, H>::clear_frame`: the loop pops while the data vector is
longer than the start of the last frame, once for each item of that frame. -/
def clearFrame (self : HistoryRecorder (FramedStack X) (FramedStackEvent X)) (timestamp : Nat) :
    Option (HistoryRecorder (FramedStack X) (FramedStackEvent X)) := do
  let start ← self.inner.frameStartIndices.getLast?
  self.popTimes timestamp (self.inner.data.length - start)

/-- `HistoryRecorder<FramedStack<T>, H>::extend_frame`. -/
def extendFrame (self : HistoryRecorder (FramedStack X) (FramedStackEvent X)) :
    List X → Nat → Option (HistoryRecorder (FramedStack X) (FramedStackEvent X))
  | [], _ => some self
  | x :: items, timestamp => do
    let self ← self.pushToFrame x timestamp
    self.extendFrame items timestamp

/-- `HistoryRecorder<FramedStack<T>, H>::push_frame`: the new frame starts at the end of the
data. -/
def pushFrame (self : HistoryRecorder (FramedStack X) (FramedStackEvent X)) (timestamp : Nat) :
    Option (HistoryRecorder (FramedStack X) (FramedStackEvent X)) :=
  (self.applyHistoricRecord (.pushFrame self.inner.data.length) timestamp).map (·.1)

/-- `HistoryRecorder<FramedStack<T>, H>::merge_frame`. -/
def mergeFrame (self : HistoryRecorder (FramedStack X) (FramedStackEvent X)) (timestamp : Nat) :
    Option (HistoryRecorder (FramedStack X) (FramedStackEvent X)) :=
  (self.applyHistoricRecord .mergeFrame timestamp).map (·.1)

end HistoryRecorder

/-! ### Transient storage -/

/-- `StorageHistoryRecord`, with the storage key abstract. -/
structure StorageHistoryRecord (K : Type) where
  key : K
  value : BitVec 256
  deriving DecidableEq, Repr

/-- `TransientStorageWrapper`. -/
structure TransientStorageWrapper (K : Type) where
  inner : AList fun _ : K => BitVec 256

/-- `impl WithHistory for TransientStorageWrapper`: a key never written holds zero. -/
instance {K : Type} [DecidableEq K] :
    WithHistory (TransientStorageWrapper K) (StorageHistoryRecord K) (BitVec 256) where
  applyHistoricRecord self item :=
    let prevValue := (self.inner.lookup item.key).getD 0
    some (⟨self.inner.insert item.key item.value⟩, ⟨item.key, prevValue⟩, prevValue)

@[simp]
theorem TransientStorageWrapper.apply_eq {K : Type} [DecidableEq K] (self : TransientStorageWrapper K)
    (item : StorageHistoryRecord K) :
    WithHistory.applyHistoricRecord self item =
      some (⟨self.inner.insert item.key item.value⟩, ⟨item.key, (self.inner.lookup item.key).getD 0⟩,
        (self.inner.lookup item.key).getD 0) := rfl

namespace HistoryRecorder

variable {K : Type} [DecidableEq K]

/-- `read_from_transient_storage`. -/
def readFromTransientStorage
    (self : HistoryRecorder (TransientStorageWrapper K) (StorageHistoryRecord K)) (key : K) :
    BitVec 256 :=
  (self.inner.inner.lookup key).getD 0

/-- `HistoryRecorder<TransientStorageWrapper, H>::write_to_storage`. -/
def writeToTransientStorage
    (self : HistoryRecorder (TransientStorageWrapper K) (StorageHistoryRecord K)) (key : K)
    (value : BitVec 256) (timestamp : Nat) :
    Option (HistoryRecorder (TransientStorageWrapper K) (StorageHistoryRecord K) × BitVec 256) :=
  self.applyHistoricRecord ⟨key, value⟩ timestamp

end HistoryRecorder

/-! ### Memory -/

/-- `PrimitiveValue` of the VM: a word and whether it is a fat pointer. -/
structure PrimitiveValue where
  value : BitVec 256
  isPointer : Bool
  deriving DecidableEq, Repr

/-- `PrimitiveValue::empty()`. -/
def PrimitiveValue.empty : PrimitiveValue := ⟨0, false⟩

/-- `PAGE_SUBDIVISION_LEN`. -/
def PAGE_SUBDIVISION_LEN : Nat := 64

theorem PAGE_SUBDIVISION_LEN_pos : 0 < PAGE_SUBDIVISION_LEN := by decide

/-- `MemoryPage`: the slots in blocks of `PAGE_SUBDIVISION_LEN`, each allocated on its first
write. -/
structure MemoryPage where
  root : List (Option (Vector PrimitiveValue PAGE_SUBDIVISION_LEN))
  deriving Inhabited

namespace MemoryPage

/-- The place of a slot within its block. -/
def leafIndex (slot : Nat) : Fin PAGE_SUBDIVISION_LEN :=
  ⟨slot % PAGE_SUBDIVISION_LEN, Nat.mod_lt _ PAGE_SUBDIVISION_LEN_pos⟩

/-- `MemoryPage::get`: an unallocated slot reads empty. -/
def get (self : MemoryPage) (slot : Nat) : PrimitiveValue :=
  match self.root[slot / PAGE_SUBDIVISION_LEN]? with
  | some (some leaf) => leaf.get (leafIndex slot)
  | _ => .empty

/-- The block list after the `resize_with` of `MemoryPage::set`. -/
def resizedRoot (self : MemoryPage) (rootIndex : Nat) :
    List (Option (Vector PrimitiveValue PAGE_SUBDIVISION_LEN)) :=
  if self.root.length ≤ rootIndex then
    self.root ++ List.replicate (rootIndex + 1 - self.root.length) none
  else
    self.root

/-- `MemoryPage::set`: the page after the write, and the value the slot held. -/
def set (self : MemoryPage) (slot : Nat) (value : PrimitiveValue) : MemoryPage × PrimitiveValue :=
  let rootIndex := slot / PAGE_SUBDIVISION_LEN
  let leafIndex := leafIndex slot
  let root := self.resizedRoot rootIndex
  match root[rootIndex]? with
  | some (some leaf) =>
    (⟨root.set rootIndex (some (leaf.set leafIndex value))⟩, leaf.get leafIndex)
  | _ =>
    (⟨root.set rootIndex (some ((Vector.replicate _ .empty).set leafIndex value))⟩, .empty)

end MemoryPage

/-- `MemoryWrapper`. -/
structure MemoryWrapper where
  memory : List MemoryPage
  deriving Inhabited

/-- `MemoryHistoryRecord`. -/
structure MemoryHistoryRecord where
  page : Nat
  slot : Nat
  setValue : PrimitiveValue
  deriving DecidableEq, Repr

namespace MemoryWrapper

/-- `MemoryWrapper::ensure_page_exists`. -/
def ensurePageExists (self : MemoryWrapper) (page : Nat) : MemoryWrapper :=
  if self.memory.length ≤ page then
    ⟨self.memory ++ List.replicate (page + 1 - self.memory.length) default⟩
  else
    self

/-- `MemoryWrapper::read_slot`. -/
def readSlot (self : MemoryWrapper) (page slot : Nat) : PrimitiveValue :=
  (self.memory[page]?.map (·.get slot)).getD .empty

end MemoryWrapper

/-- `impl WithHistory for MemoryWrapper`: the undo record writes back the previous value. -/
instance : WithHistory MemoryWrapper MemoryHistoryRecord PrimitiveValue where
  applyHistoricRecord self item :=
    let self := self.ensurePageExists item.page
    -- `get_mut(page).unwrap()`, which `ensure_page_exists` makes succeed
    match self.memory[item.page]? with
    | none => none
    | some pageHandle =>
      let (pageHandle, prevValue) := pageHandle.set item.slot item.setValue
      some (⟨self.memory.set item.page pageHandle⟩, ⟨item.page, item.slot, prevValue⟩, prevValue)

theorem MemoryWrapper.apply_of_getElem? {self : MemoryWrapper} {item : MemoryHistoryRecord}
    {pageHandle : MemoryPage}
    (found : (self.ensurePageExists item.page).memory[item.page]? = some pageHandle) :
    WithHistory.applyHistoricRecord self item =
      some (⟨(self.ensurePageExists item.page).memory.set item.page
          (pageHandle.set item.slot item.setValue).1⟩,
        ⟨item.page, item.slot, (pageHandle.set item.slot item.setValue).2⟩,
        (pageHandle.set item.slot item.setValue).2) := by
  simp only [WithHistory.applyHistoricRecord, found]

/-- The undo records that `clear_page` logs: one for each non-empty slot of the allocated blocks,
in the order of the slots. -/
def pageRecords (page : Nat) (root : List (Option (Vector PrimitiveValue PAGE_SUBDIVISION_LEN))) :
    List MemoryHistoryRecord :=
  root.zipIdx.flatMap fun (x, i) =>
    match x with
    | none => []
    | some slots =>
      slots.toList.zipIdx.filterMap fun (value, j) =>
        if value ≠ .empty then some ⟨page, PAGE_SUBDIVISION_LEN * i + j, value⟩ else none

namespace HistoryRecorder

/-- `HistoryRecorder<MemoryWrapper, H>::write_to_memory`. -/
def writeToMemory (self : HistoryRecorder MemoryWrapper MemoryHistoryRecord) (page slot : Nat)
    (value : PrimitiveValue) (timestamp : Nat) :
    Option (HistoryRecorder MemoryWrapper MemoryHistoryRecord × PrimitiveValue) :=
  self.applyHistoricRecord ⟨page, slot, value⟩ timestamp

/-- `HistoryRecorder<MemoryWrapper, H>::clear_page`: it logs its undo records itself, under the
timestamp as given and without the check of `apply_historic_record`. -/
def clearPage (self : HistoryRecorder MemoryWrapper MemoryHistoryRecord) (page timestamp : Nat) :
    HistoryRecorder MemoryWrapper MemoryHistoryRecord :=
  match self.inner.memory[page]? with
  | none => self
  | some pageHandle =>
    ⟨⟨self.inner.memory.set page default⟩,
      ((pageRecords page pageHandle.root).map (timestamp, ·)).reverse ++ self.history⟩

end HistoryRecorder

end ZksyncEra.Multivm
