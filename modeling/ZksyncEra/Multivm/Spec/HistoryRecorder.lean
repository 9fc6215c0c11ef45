import ZksyncEra.Multivm.HistoryRecorder

/-!
What the history recorder of the legacy VM guarantees, and where it does not.

A run of `apply_historic_record` calls with non-decreasing timestamps is the component's own run:
the assertion on timestamps never fires (`applyAll_inner`). Where the undo records a component
returns restore what its users can observe (`LawfulHistory`: vectors and framed stacks exactly,
hash maps and transient storage by their lookups, memory by its slots), rolling back to a
timestamp leaves the state and the history of the operations whose cycle starts before it
(`rollbackToTimestamp_applyAll`).

`clear_page` logs its undo records under the raw timestamp, without the assertion: after it, a
write at the same timestamp, which `apply_historic_record` logs under the start of the cycle,
panics (`writeToMemory_after_clearPage_panics`).
-/

namespace ZksyncEra.Multivm

/-! ### Timestamps -/

theorem normalizeTimestamp_eq (timestamp : Nat) :
    normalizeTimestamp timestamp = TIME_DELTA_PER_CYCLE * (timestamp / TIME_DELTA_PER_CYCLE) := by
  have split := Nat.mod_add_div timestamp TIME_DELTA_PER_CYCLE
  unfold normalizeTimestamp
  omega

theorem normalizeTimestamp_mono {earlier later : Nat} (le : earlier ≤ later) :
    normalizeTimestamp earlier ≤ normalizeTimestamp later := by
  rw [normalizeTimestamp_eq, normalizeTimestamp_eq]
  exact Nat.mul_le_mul_left _ (Nat.div_le_div_right le)

theorem normalizeTimestamp_lt {timestamp : Nat} (unaligned : timestamp % TIME_DELTA_PER_CYCLE ≠ 0) :
    normalizeTimestamp timestamp < timestamp := by
  have below := Nat.mod_le timestamp TIME_DELTA_PER_CYCLE
  unfold normalizeTimestamp
  omega

namespace HistoryRecorder

variable {T R V : Type} [WithHistory T R V]

/-! ### One step -/

/-- The timestamp `apply_historic_record` compares with: that of the last record, or zero. -/
def lastTimestamp (self : HistoryRecorder T R) : Nat := (self.history.head?.map (·.1)).getD 0

@[simp]
theorem lastTimestamp_cons (inner : T) (stamp : Nat) (record : R) (history : List (Nat × R)) :
    lastTimestamp ⟨inner, (stamp, record) :: history⟩ = stamp := rfl

/-- Everything `apply_historic_record` can do: apply the record to the component, and log the undo
record under the start of the cycle if that is not below the last logged timestamp. -/
theorem applyHistoricRecord_eq_some {self after : HistoryRecorder T R} {item : R}
    {timestamp : Nat} {value : V} :
    self.applyHistoricRecord item timestamp = some (after, value) ↔
      ∃ inner undo, WithHistory.applyHistoricRecord self.inner item = some (inner, undo, value) ∧
        self.lastTimestamp ≤ normalizeTimestamp timestamp ∧
        after = ⟨inner, (normalizeTimestamp timestamp, undo) :: self.history⟩ := by
  unfold applyHistoricRecord lastTimestamp
  cases applied : WithHistory.applyHistoricRecord self.inner item with
  | none => simp
  | some result =>
    obtain ⟨inner, undo, returned⟩ := result
    by_cases monotonic : (self.history.head?.map (·.1)).getD 0 ≤ normalizeTimestamp timestamp
    · simp only [Option.bind_eq_bind, Option.bind_some, monotonic, if_true, Option.pure_def,
        Option.some.injEq, Prod.mk.injEq]
      constructor
      · rintro ⟨rfl, rfl⟩
        exact ⟨inner, undo, ⟨rfl, rfl, rfl⟩, trivial, rfl⟩
      · rintro ⟨inner', undo', ⟨rfl, rfl, rfl⟩, -, rfl⟩
        exact ⟨rfl, rfl⟩
    · simp [monotonic]

/-- The assertion `Timestamps are not monotonic`: a timestamp whose cycle starts below the last
logged timestamp panics, whatever the record. -/
theorem applyHistoricRecord_eq_none {self : HistoryRecorder T R} {item : R} {timestamp : Nat}
    (behind : normalizeTimestamp timestamp < self.lastTimestamp) :
    self.applyHistoricRecord item timestamp = none := by
  cases result : self.applyHistoricRecord item timestamp with
  | none => rfl
  | some result =>
    obtain ⟨-, -, -, monotonic, -⟩ := applyHistoricRecord_eq_some.mp result
    omega

/-! ### Runs -/

/-- A run of `apply_historic_record` calls, each record with its timestamp. -/
def applyAll : HistoryRecorder T R → List (R × Nat) → Option (HistoryRecorder T R)
  | self, [] => some self
  | self, (item, timestamp) :: ops => do
    let (self, _) ← self.applyHistoricRecord item timestamp
    self.applyAll ops

variable (T) in
/-- The same records applied to the component alone. -/
def applyRecords : T → List R → Option T
  | inner, [] => some inner
  | inner, item :: items => do
    let (inner, _) ← WithHistory.applyHistoricRecord inner item
    applyRecords inner items

theorem applyAll_append (self : HistoryRecorder T R) (ops : List (R × Nat)) (item : R)
    (timestamp : Nat) :
    self.applyAll (ops ++ [(item, timestamp)]) =
      (self.applyAll ops).bind fun mid => (mid.applyHistoricRecord item timestamp).map (·.1) := by
  induction ops generalizing self with
  | nil =>
    simp only [applyAll, List.nil_append, Option.bind_eq_bind, Option.bind_some]
    cases self.applyHistoricRecord item timestamp <;> rfl
  | cons op ops ih =>
    obtain ⟨first, stamp⟩ := op
    simp only [applyAll, List.cons_append, Option.bind_eq_bind]
    cases self.applyHistoricRecord first stamp with
    | none => rfl
    | some result => exact ih result.1

/-- A run never lowers the last logged timestamp, and logs every record at most at its end. -/
theorem lastTimestamp_applyAll {self after : HistoryRecorder T R} {ops : List (R × Nat)}
    (ran : self.applyAll ops = some after) :
    self.lastTimestamp ≤ after.lastTimestamp ∧
      ∀ op ∈ ops, normalizeTimestamp op.2 ≤ after.lastTimestamp := by
  induction ops generalizing self with
  | nil =>
    cases ran
    exact ⟨le_rfl, by simp⟩
  | cons op ops ih =>
    obtain ⟨item, stamp⟩ := op
    simp only [applyAll, Option.bind_eq_bind, Option.bind_eq_some_iff] at ran
    obtain ⟨⟨mid, value⟩, step, rest⟩ := ran
    obtain ⟨inner, undo, -, monotonic, rfl⟩ := applyHistoricRecord_eq_some.mp step
    obtain ⟨grows, logged⟩ := ih rest
    simp only [lastTimestamp_cons] at grows
    refine ⟨Nat.le_trans monotonic grows, ?_⟩
    rintro op (_ | ⟨_, member⟩)
    · exact grows
    · exact logged op member

/-- With non-decreasing timestamps, none below the last logged one, the recorder runs exactly
as the component does: the assertion on timestamps never fires. -/
theorem applyAll_inner (self : HistoryRecorder T R) (ops : List (R × Nat))
    (sorted : (ops.map (·.2)).Pairwise (· ≤ ·))
    (above : ∀ op ∈ ops, self.lastTimestamp ≤ normalizeTimestamp op.2) :
    (self.applyAll ops).map (·.inner) = applyRecords T self.inner (ops.map (·.1)) := by
  induction ops generalizing self with
  | nil => rfl
  | cons op ops ih =>
    obtain ⟨item, stamp⟩ := op
    simp only [List.map_cons, List.pairwise_cons, List.mem_map] at sorted
    obtain ⟨later, sorted⟩ := sorted
    simp only [applyAll, applyRecords, List.map_cons, Option.bind_eq_bind]
    cases applied : WithHistory.applyHistoricRecord self.inner item with
    | none =>
      have failed : self.applyHistoricRecord item stamp = none := by
        simp [applyHistoricRecord, applied]
      simp [failed]
    | some result =>
      obtain ⟨inner, undo, value⟩ := result
      have step : self.applyHistoricRecord item stamp =
          some (⟨inner, (normalizeTimestamp stamp, undo) :: self.history⟩, value) :=
        applyHistoricRecord_eq_some.mpr
          ⟨inner, undo, applied, above _ List.mem_cons_self, rfl⟩
      simp only [step, Option.bind_some]
      refine ih _ sorted fun op member => ?_
      exact normalizeTimestamp_mono (later op.2 ⟨op, member, rfl⟩)

/-! ### Rollback -/

variable {O : Type}

/-- The undo records of a component restore what `view` shows of it, and what a record does is
seen through `view` alone. -/
structure LawfulHistory (view : T → O) : Prop where
  undo : ∀ {inner inner' : T} {item undo : R} {value : V},
    WithHistory.applyHistoricRecord inner item = some (inner', undo, value) →
      ∃ restored rest, WithHistory.applyHistoricRecord inner' undo = some (restored, rest) ∧
        view restored = view inner
  congr : ∀ {a b : T} (item : R), view a = view b →
    (WithHistory.applyHistoricRecord a item).map (fun result => (view result.1, result.2)) =
      (WithHistory.applyHistoricRecord b item).map (fun result => (view result.1, result.2))

variable {view : T → O}

/-- The rollback loop sees the component through `view` alone. -/
theorem rollbackLoop_congr (lawful : LawfulHistory view) (timestamp : Nat) {a b : T}
    (same : view a = view b) (history : List (Nat × R)) :
    (rollbackLoop timestamp a history).map (fun result => (view result.1, result.2)) =
      (rollbackLoop timestamp b history).map (fun result => (view result.1, result.2)) := by
  induction history generalizing a b with
  | nil => simp [rollbackLoop, same]
  | cons entry history ih =>
    obtain ⟨stamp, item⟩ := entry
    by_cases undone : timestamp ≤ stamp
    · have step := lawful.congr item same
      simp only [rollbackLoop, undone, if_true, Option.bind_eq_bind]
      cases fromA : WithHistory.applyHistoricRecord a item with
      | none =>
        cases fromB : WithHistory.applyHistoricRecord b item with
        | none => rfl
        | some resultB => simp [fromA, fromB] at step
      | some resultA =>
        cases fromB : WithHistory.applyHistoricRecord b item with
        | none => simp [fromA, fromB] at step
        | some resultB =>
          simp only [fromA, fromB, Option.map_some, Option.some.injEq, Prod.mk.injEq] at step
          exact ih step.1
    · simp [rollbackLoop, undone, same]

theorem rollbackToTimestamp_of_lt {self : HistoryRecorder T R} {timestamp : Nat}
    (past : self.lastTimestamp < timestamp) : self.rollbackToTimestamp timestamp = some self := by
  obtain ⟨inner, history⟩ := self
  cases history with
  | nil => rfl
  | cons entry history =>
    obtain ⟨stamp, item⟩ := entry
    simp only [lastTimestamp_cons] at past
    have kept : ¬timestamp ≤ stamp := by omega
    simp [rollbackToTimestamp, rollbackLoop, kept]

/-- Rolling back the last record of a run from a fresh history: undo it, then roll back the rest
from a state that `view` does not tell from the one before it. -/
theorem rollbackToTimestamp_cons (lawful : LawfulHistory view) {mid : HistoryRecorder T R}
    {inner : T} {item undo : R} {value : V} {stamp timestamp : Nat}
    (applied : WithHistory.applyHistoricRecord mid.inner item = some (inner, undo, value))
    (undone : timestamp ≤ stamp) :
    (rollbackToTimestamp ⟨inner, (stamp, undo) :: mid.history⟩ timestamp).map
        (fun result => (view result.inner, result.history)) =
      (mid.rollbackToTimestamp timestamp).map (fun result => (view result.inner, result.history)) := by
  obtain ⟨restored, rest, reversed, same⟩ := lawful.undo applied
  have loop := rollbackLoop_congr lawful timestamp same mid.history
  simp only [rollbackToTimestamp, rollbackLoop, undone, if_true, reversed, Option.bind_eq_bind,
    Option.bind_some, Option.map_map]
  exact loop

/-- Rollback restores a prefix: after a run from a fresh history, rolling back to `timestamp`
leaves what `view` shows of the component, and exactly the history, of the run of the operations
whose cycle starts before `timestamp`. -/
theorem rollbackToTimestamp_applyAll (lawful : LawfulHistory view) (self : HistoryRecorder T R)
    (fresh : self.history = []) (ops : List (R × Nat)) {after : HistoryRecorder T R}
    (ran : self.applyAll ops = some after) (timestamp : Nat) :
    ∃ before restored,
      self.applyAll (ops.take (ops.countP fun op => normalizeTimestamp op.2 < timestamp)) =
          some before ∧
        after.rollbackToTimestamp timestamp = some restored ∧
        view restored.inner = view before.inner ∧ restored.history = before.history := by
  induction ops using List.reverseRecOn generalizing after with
  | nil =>
    cases ran
    obtain ⟨inner, history⟩ := self
    subst fresh
    exact ⟨_, _, rfl, rfl, rfl, rfl⟩
  | append_singleton ops op ih =>
    obtain ⟨item, stamp⟩ := op
    rw [applyAll_append, Option.bind_eq_some_iff] at ran
    obtain ⟨mid, ranMid, lastRun⟩ := ran
    obtain ⟨⟨after', value⟩, step, rfl⟩ := Option.map_eq_some_iff.mp lastRun
    obtain ⟨inner, undo, applied, monotonic, rfl⟩ := applyHistoricRecord_eq_some.mp step
    by_cases undone : timestamp ≤ normalizeTimestamp stamp
    · -- the last operation is undone, and the count stops before it
      obtain ⟨before, restored, prefixRun, rolledBack, sameView, sameHistory⟩ := ih ranMid
      have uncounted : (ops ++ [(item, stamp)]).countP (fun op => normalizeTimestamp op.2 < timestamp) =
          ops.countP fun op => normalizeTimestamp op.2 < timestamp := by
        simp [List.countP_append, Nat.not_lt.mpr undone]
      have step := rollbackToTimestamp_cons lawful applied undone
      rw [rolledBack, Option.map_some] at step
      obtain ⟨restored', rolledBack', equal⟩ := Option.map_eq_some_iff.mp step
      simp only [Prod.mk.injEq] at equal
      refine ⟨before, restored', ?_, rolledBack', equal.1.trans sameView, equal.2.trans sameHistory⟩
      rwa [uncounted, List.take_append_of_le_length List.countP_le_length]
    · -- every operation logged its record before `timestamp`: nothing is undone
      have past : normalizeTimestamp stamp < timestamp := Nat.lt_of_not_le undone
      have counted : (ops ++ [(item, stamp)]).countP (fun op => normalizeTimestamp op.2 < timestamp) =
          (ops ++ [(item, stamp)]).length := by
        rw [List.countP_eq_length]
        rintro op member
        obtain ⟨-, logged⟩ := lastTimestamp_applyAll ranMid
        rcases List.mem_append.mp member with member | member
        · simpa using Nat.lt_of_le_of_lt (logged op member) (Nat.lt_of_le_of_lt monotonic past)
        · simpa [List.mem_singleton.mp member] using past
      refine ⟨_, _, ?_, rollbackToTimestamp_of_lt (by simpa using past), rfl, rfl⟩
      rw [counted, List.take_length, applyAll_append, ranMid, Option.bind_some, step,
        Option.map_some]

/-- A component whose records always apply and act through `view`: the undo record and the value
are read off what `view` shows, and what it shows after is `update` of what it showed before. It
is lawful when undoing through `update` gives back what `view` showed. -/
theorem LawfulHistory.of_view (update : O → R → O) (reverse : O → R → R × V)
    (applies : ∀ inner item, ∃ inner',
      WithHistory.applyHistoricRecord inner item = some (inner', reverse (view inner) item) ∧
        view inner' = update (view inner) item)
    (restores : ∀ observed item, update (update observed item) (reverse observed item).1 = observed) :
    LawfulHistory view where
  undo := by
    intro inner inner' item undo value applied
    obtain ⟨after, found, shown⟩ := applies inner item
    rw [applied, Option.some.injEq, Prod.mk.injEq] at found
    obtain ⟨rfl, reversed⟩ := found
    have undoEq : undo = (reverse (view inner) item).1 := by rw [← reversed]
    obtain ⟨restored, undone, shownAfter⟩ := applies inner' undo
    refine ⟨restored, _, undone, ?_⟩
    rw [shownAfter, shown, undoEq, restores]
  congr := by
    intro a b item same
    obtain ⟨a', foundA, shownA⟩ := applies a item
    obtain ⟨b', foundB, shownB⟩ := applies b item
    simp [foundA, foundB, shownA, shownB, same]

/-- Without panics and with non-decreasing timestamps, the recorder runs as the component does,
and rolling back to any timestamp leaves what `view` shows of the component, and exactly the
history, after the operations whose cycle starts before it. -/
theorem applyAll_rollbackToTimestamp (lawful : LawfulHistory view) (self : HistoryRecorder T R)
    (fresh : self.history = []) (ops : List (R × Nat)) (sorted : (ops.map (·.2)).Pairwise (· ≤ ·))
    {final : T} (ranInner : applyRecords T self.inner (ops.map (·.1)) = some final) :
    ∃ after, self.applyAll ops = some after ∧ after.inner = final ∧
      ∀ timestamp, ∃ before restored,
        self.applyAll (ops.take (ops.countP fun op => normalizeTimestamp op.2 < timestamp)) =
            some before ∧
          after.rollbackToTimestamp timestamp = some restored ∧
          view restored.inner = view before.inner ∧ restored.history = before.history := by
  have above : ∀ op ∈ ops, self.lastTimestamp ≤ normalizeTimestamp op.2 := by
    simp [lastTimestamp, fresh]
  have ran := applyAll_inner self ops sorted above
  rw [ranInner] at ran
  obtain ⟨after, ranAll, rfl⟩ := Option.map_eq_some_iff.mp ran
  exact ⟨after, ranAll, rfl, rollbackToTimestamp_applyAll lawful self fresh ops ranAll⟩

end HistoryRecorder

open HistoryRecorder

/-! ### The components -/

theorem lawfulHistory_list {X : Type} :
    LawfulHistory (T := List X) (R := VectorHistoryEvent X) id where
  undo := by
    intro inner inner' item undo value applied
    cases item with
    | push x =>
      simp only [VectorHistoryEvent.apply_push, Option.some.injEq, Prod.mk.injEq] at applied
      obtain ⟨rfl, rfl, rfl⟩ := applied
      exact ⟨inner, (.push x, some x), by simp, rfl⟩
    | pop =>
      simp only [VectorHistoryEvent.apply_pop, Option.map_eq_some_iff, Prod.mk.injEq] at applied
      obtain ⟨x, last, rfl, rfl, rfl⟩ := applied
      exact ⟨_, _, rfl, List.dropLast_append_getLast? x last⟩
  congr := by
    rintro a b item rfl
    rfl

theorem lawfulHistory_framedStack {X : Type} :
    LawfulHistory (T := FramedStack X) (R := FramedStackEvent X) id where
  undo := by
    intro inner inner' item undo value applied
    obtain ⟨data, frames⟩ := inner
    cases item with
    | push x =>
      simp only [FramedStackEvent.apply_push, Option.some.injEq, Prod.mk.injEq] at applied
      obtain ⟨rfl, rfl, -⟩ := applied
      exact ⟨⟨data, frames⟩, (.push x, ()), by simp, rfl⟩
    | pop =>
      simp only [FramedStackEvent.apply_pop, Option.map_eq_some_iff, Prod.mk.injEq] at applied
      obtain ⟨x, last, rfl, rfl, -⟩ := applied
      exact ⟨_, _, rfl, by simp [List.dropLast_append_getLast? x last]⟩
    | pushFrame i =>
      simp only [FramedStackEvent.apply_pushFrame, Option.some.injEq, Prod.mk.injEq] at applied
      obtain ⟨rfl, rfl, -⟩ := applied
      exact ⟨⟨data, frames⟩, (.pushFrame i, ()), by simp, rfl⟩
    | mergeFrame =>
      simp only [FramedStackEvent.apply_mergeFrame, Option.map_eq_some_iff, Prod.mk.injEq] at applied
      obtain ⟨pos, last, rfl, rfl, -⟩ := applied
      exact ⟨_, _, rfl, by simp [List.dropLast_append_getLast? pos last]⟩
  congr := by
    rintro a b item rfl
    rfl

theorem lawfulHistory_aList {K V : Type} [DecidableEq K] :
    LawfulHistory (T := AList fun _ : K => V) (R := HashMapHistoryEvent K V)
      fun map key => map.lookup key := by
  refine LawfulHistory.of_view (fun observed item => Function.update observed item.key item.value)
    (fun observed item => (⟨item.key, observed item.key⟩, observed item.key)) ?_ ?_
  · rintro map ⟨key, _ | x⟩
    · refine ⟨_, HashMapHistoryEvent.apply_remove map key, funext fun other => ?_⟩
      by_cases same : other = key
      · subst same
        simp
      · simp [same, AList.lookup_erase_ne same]
    · refine ⟨_, HashMapHistoryEvent.apply_insert map key x, funext fun other => ?_⟩
      by_cases same : other = key
      · subst same
        simp
      · simp [same, AList.lookup_insert_ne same]
  · intro observed item
    simp

theorem lawfulHistory_transientStorage {K : Type} [DecidableEq K] :
    LawfulHistory (T := TransientStorageWrapper K) (R := StorageHistoryRecord K)
      fun storage key => (storage.inner.lookup key).getD 0 := by
  refine LawfulHistory.of_view (fun observed item => Function.update observed item.key item.value)
    (fun observed item => (⟨item.key, observed item.key⟩, observed item.key)) ?_ ?_
  · intro storage item
    refine ⟨_, TransientStorageWrapper.apply_eq storage item, funext fun other => ?_⟩
    by_cases same : other = item.key
    · subst same
      simp
    · simp [same, AList.lookup_insert_ne same]
  · intro observed item
    simp

/-! ### Memory -/

namespace MemoryPage

theorem get_eq (self : MemoryPage) (slot : Nat) :
    self.get slot =
      ((self.root[slot / PAGE_SUBDIVISION_LEN]?).join.map (·.get (leafIndex slot))).getD .empty := by
  unfold get
  cases self.root[slot / PAGE_SUBDIVISION_LEN]? with
  | none => rfl
  | some block => cases block <;> rfl

theorem lt_length_resizedRoot (self : MemoryPage) (rootIndex : Nat) :
    rootIndex < (self.resizedRoot rootIndex).length := by
  unfold resizedRoot
  split
  · simp only [List.length_append, List.length_replicate]
    omega
  · omega

/-- Growing the block list allocates nothing. -/
theorem join_resizedRoot (self : MemoryPage) (rootIndex index : Nat) :
    ((self.resizedRoot rootIndex)[index]?).join = (self.root[index]?).join := by
  unfold resizedRoot
  split
  · rw [List.getElem?_append]
    split
    · rfl
    · have beyond : self.root[index]? = none := List.getElem?_eq_none (by omega)
      rw [beyond, List.getElem?_replicate]
      split <;> rfl
  · rfl

/-- Two slots of one block are equal when their places in it are. -/
theorem eq_iff_leafIndex {slot slot' : Nat}
    (sameBlock : slot' / PAGE_SUBDIVISION_LEN = slot / PAGE_SUBDIVISION_LEN) :
    slot' = slot ↔ leafIndex slot = leafIndex slot' := by
  have split := Nat.div_add_mod slot PAGE_SUBDIVISION_LEN
  have split' := Nat.div_add_mod slot' PAGE_SUBDIVISION_LEN
  simp only [leafIndex, Fin.ext_iff]
  constructor
  · rintro rfl
    rfl
  · intro samePlace
    rw [← split, ← split', sameBlock, samePlace]

theorem leafIndex_lt (slot : Nat) : (leafIndex slot).val < PAGE_SUBDIVISION_LEN :=
  (leafIndex slot).isLt

theorem get_set_leaf (leaf : Vector PrimitiveValue PAGE_SUBDIVISION_LEN) (slot slot' : Nat)
    (value : PrimitiveValue) :
    (leaf.set (leafIndex slot) value (leafIndex_lt slot)).get (leafIndex slot') =
      if leafIndex slot = leafIndex slot' then value else leaf.get (leafIndex slot') := by
  change (leaf.set (leafIndex slot) value)[(leafIndex slot').1] = _
  rw [Vector.getElem_set]
  simp only [Fin.ext_iff]
  rfl

theorem set_snd (self : MemoryPage) (slot : Nat) (value : PrimitiveValue) :
    (self.set slot value).2 = self.get slot := by
  rw [get_eq, ← join_resizedRoot self (slot / PAGE_SUBDIVISION_LEN)]
  simp only [set]
  cases (self.resizedRoot (slot / PAGE_SUBDIVISION_LEN))[slot / PAGE_SUBDIVISION_LEN]? with
  | none => rfl
  | some block => cases block <;> rfl

/-- The write allocates the slot's block if it must, and sets the slot in it. -/
theorem set_fst (self : MemoryPage) (slot : Nat) (value : PrimitiveValue) :
    (self.set slot value).1 =
      ⟨(self.resizedRoot (slot / PAGE_SUBDIVISION_LEN)).set (slot / PAGE_SUBDIVISION_LEN)
        (some ((((self.resizedRoot (slot / PAGE_SUBDIVISION_LEN))[slot / PAGE_SUBDIVISION_LEN]?).join.getD
          (Vector.replicate _ .empty)).set (leafIndex slot) value (leafIndex_lt slot)))⟩ := by
  simp only [set]
  cases (self.resizedRoot (slot / PAGE_SUBDIVISION_LEN))[slot / PAGE_SUBDIVISION_LEN]? with
  | none => rfl
  | some block => cases block <;> rfl

/-- A block read at a slot's place: an unallocated block reads as one of empty slots. -/
theorem getD_map_get (block : Option (Vector PrimitiveValue PAGE_SUBDIVISION_LEN)) (slot : Nat) :
    (block.map (·.get (leafIndex slot))).getD .empty =
      (block.getD (Vector.replicate _ .empty)).get (leafIndex slot) := by
  cases block with
  | none => exact (Vector.getElem_replicate (leafIndex slot).2).symm
  | some leaf => rfl

theorem get_set (self : MemoryPage) (slot slot' : Nat) (value : PrimitiveValue) :
    (self.set slot value).1.get slot' = if slot' = slot then value else self.get slot' := by
  have long := lt_length_resizedRoot self (slot / PAGE_SUBDIVISION_LEN)
  rw [get_eq, set_fst, get_eq self, ← join_resizedRoot self (slot / PAGE_SUBDIVISION_LEN)]
  generalize self.resizedRoot (slot / PAGE_SUBDIVISION_LEN) = root at long ⊢
  simp only [List.getElem?_set, long, if_true]
  by_cases sameBlock : slot' / PAGE_SUBDIVISION_LEN = slot / PAGE_SUBDIVISION_LEN
  · rw [if_pos sameBlock.symm, sameBlock, getD_map_get]
    simp only [Option.join_some, Option.getD_some]
    rw [get_set_leaf]
    by_cases same : slot' = slot
    · rw [if_pos same, if_pos ((eq_iff_leafIndex sameBlock).mp same)]
    · rw [if_neg same, if_neg (mt (eq_iff_leafIndex sameBlock).mpr same), getD_map_get]
  · have other : slot' ≠ slot := fun same => sameBlock (same ▸ rfl)
    rw [if_neg (Ne.symm sameBlock), if_neg other]

end MemoryPage

namespace MemoryWrapper

theorem lt_length_ensurePageExists (self : MemoryWrapper) (page : Nat) :
    page < (self.ensurePageExists page).memory.length := by
  unfold ensurePageExists
  split
  · simp only [List.length_append, List.length_replicate]
    omega
  · omega

theorem readSlot_ensurePageExists (self : MemoryWrapper) (page page' slot : Nat) :
    (self.ensurePageExists page).readSlot page' slot = self.readSlot page' slot := by
  unfold ensurePageExists readSlot
  split
  · rw [List.getElem?_append]
    split
    · rfl
    · have beyond : self.memory[page']? = none := List.getElem?_eq_none (by omega)
      rw [beyond, List.getElem?_replicate]
      split <;> rfl
  · rfl

theorem readSlot_set {memory : List MemoryPage} {page : Nat} (long : page < memory.length)
    (pageHandle : MemoryPage) (page' slot : Nat) :
    (⟨memory.set page pageHandle⟩ : MemoryWrapper).readSlot page' slot =
      if page' = page then pageHandle.get slot else (⟨memory⟩ : MemoryWrapper).readSlot page' slot := by
  unfold readSlot
  rw [List.getElem?_set]
  by_cases same : page' = page
  · subst same
    simp [long]
  · simp [Ne.symm same, same]

/-- A write to memory: the undo record and the value are what the slot held, and only that slot
changes. -/
theorem apply_eq (self : MemoryWrapper) (item : MemoryHistoryRecord) :
    ∃ after, WithHistory.applyHistoricRecord self item =
        some (after, ⟨item.page, item.slot, self.readSlot item.page item.slot⟩,
          self.readSlot item.page item.slot) ∧
      ∀ page slot, after.readSlot page slot =
        if (page, slot) = (item.page, item.slot) then item.setValue else self.readSlot page slot := by
  have long := lt_length_ensurePageExists self item.page
  obtain ⟨pageHandle, found⟩ : ∃ pageHandle,
      (self.ensurePageExists item.page).memory[item.page]? = some pageHandle :=
    ⟨_, List.getElem?_eq_getElem long⟩
  have held : ∀ slot, self.readSlot item.page slot = pageHandle.get slot := by
    intro slot
    rw [← readSlot_ensurePageExists self item.page]
    simp [readSlot, found]
  have previous : (pageHandle.set item.slot item.setValue).2 = self.readSlot item.page item.slot := by
    rw [MemoryPage.set_snd, held]
  refine ⟨_, previous ▸ MemoryWrapper.apply_of_getElem? found, ?_⟩
  intro page slot
  rw [readSlot_set long, readSlot_ensurePageExists]
  by_cases samePage : page = item.page
  · subst samePage
    rw [MemoryPage.get_set, held]
    simp
  · simp [samePage]

end MemoryWrapper

/-- Memory is seen through `read_slot`, which the `PartialEq` of `MemoryWrapper` compares slot by
slot. -/
theorem lawfulHistory_memoryWrapper :
    LawfulHistory (T := MemoryWrapper) (R := MemoryHistoryRecord)
      fun memory (place : Nat × Nat) => memory.readSlot place.1 place.2 := by
  refine LawfulHistory.of_view
    (fun observed item => Function.update observed (item.page, item.slot) item.setValue)
    (fun observed item => (⟨item.page, item.slot, observed (item.page, item.slot)⟩,
      observed (item.page, item.slot))) ?_ ?_
  · intro memory item
    obtain ⟨after, applied, written⟩ := MemoryWrapper.apply_eq memory item
    refine ⟨after, applied, funext fun place => ?_⟩
    rw [written, Function.update_apply]
  · intro observed item
    simp

/-! ### Clearing a page -/

/-- A page with a non-empty slot gives `clear_page` an undo record to log. -/
theorem pageRecords_ne_nil {page slot : Nat} {pageHandle : MemoryPage}
    (filled : pageHandle.get slot ≠ .empty) : pageRecords page pageHandle.root ≠ [] := by
  rw [MemoryPage.get_eq] at filled
  obtain ⟨leaf, allocated⟩ : ∃ leaf,
      pageHandle.root[slot / PAGE_SUBDIVISION_LEN]? = some (some leaf) := by
    cases found : pageHandle.root[slot / PAGE_SUBDIVISION_LEN]? with
    | none => simp [found] at filled
    | some block =>
      cases block with
      | none => simp [found] at filled
      | some leaf => exact ⟨leaf, rfl⟩
  rw [allocated, Option.join_some, Option.map_some, Option.getD_some] at filled
  have inRoot : (some leaf, slot / PAGE_SUBDIVISION_LEN) ∈ pageHandle.root.zipIdx :=
    List.mem_zipIdx_iff_getElem?.mpr allocated
  have inLeaf : (leaf.get (MemoryPage.leafIndex slot), slot % PAGE_SUBDIVISION_LEN) ∈
      leaf.toList.zipIdx := by
    rw [List.mem_zipIdx_iff_getElem?, Vector.getElem?_toList]
    exact Vector.getElem?_eq_getElem (MemoryPage.leafIndex slot).2
  unfold pageRecords
  rw [Ne, List.flatMap_eq_nil_iff]
  intro nothing
  have nothingInLeaf := nothing _ inRoot
  rw [List.filterMap_eq_nil_iff] at nothingInLeaf
  have logged := nothingInLeaf _ inLeaf
  simp only [ne_eq, filled, not_false_eq_true, if_true, reduceCtorEq] at logged

/-- After a `clear_page` that logs a record, the last logged timestamp is the raw timestamp it was
given. -/
theorem lastTimestamp_clearPage {self : HistoryRecorder MemoryWrapper MemoryHistoryRecord}
    {page timestamp : Nat} {pageHandle : MemoryPage} (found : self.inner.memory[page]? = some pageHandle)
    (logged : pageRecords page pageHandle.root ≠ []) :
    (self.clearPage page timestamp).lastTimestamp = timestamp := by
  rcases List.eq_nil_or_concat (pageRecords page pageHandle.root) with empty | ⟨records, last, split⟩
  · exact absurd empty logged
  · simp [clearPage, found, split, lastTimestamp]

/-- A write to memory right after `clear_page` at the same timestamp panics on the assertion
`Timestamps are not monotonic`, when the page had a non-empty slot and the timestamp is not the
first of its cycle. -/
theorem writeToMemory_after_clearPage_panics
    (recorder : HistoryRecorder MemoryWrapper MemoryHistoryRecord) (page slot page' slot' : Nat)
    (value : PrimitiveValue) (timestamp : Nat) (filled : recorder.inner.readSlot page slot ≠ .empty)
    (unaligned : timestamp % TIME_DELTA_PER_CYCLE ≠ 0) :
    (recorder.clearPage page timestamp).writeToMemory page' slot' value timestamp = none := by
  obtain ⟨pageHandle, found⟩ : ∃ pageHandle, recorder.inner.memory[page]? = some pageHandle := by
    cases present : recorder.inner.memory[page]? with
    | none => simp [MemoryWrapper.readSlot, present] at filled
    | some pageHandle => exact ⟨pageHandle, rfl⟩
  have held : pageHandle.get slot ≠ .empty := by
    simpa [MemoryWrapper.readSlot, found] using filled
  have cleared : (recorder.clearPage page timestamp).lastTimestamp = timestamp :=
    lastTimestamp_clearPage found (pageRecords_ne_nil held)
  have behind : normalizeTimestamp timestamp < (recorder.clearPage page timestamp).lastTimestamp := by
    rw [cleared]
    exact normalizeTimestamp_lt unaligned
  exact applyHistoricRecord_eq_none behind

/-- From an empty memory: a write at timestamp 1, `clear_page` of its page at 1, and a write at 1
that panics. -/
theorem writeToMemory_after_clearPage_panics_from_empty :
    ∃ recorder, (fromInner default : HistoryRecorder MemoryWrapper MemoryHistoryRecord).writeToMemory
        0 0 ⟨1, false⟩ 1 = some (recorder, .empty) ∧
      recorder.inner.readSlot 0 0 ≠ .empty ∧ 1 % TIME_DELTA_PER_CYCLE ≠ 0 ∧
      (recorder.clearPage 0 1).writeToMemory 0 0 ⟨1, false⟩ 1 = none :=
  ⟨_, rfl, by decide, by decide,
    writeToMemory_after_clearPage_panics _ 0 0 0 0 _ 1 (by decide) (by decide)⟩

/-- Two writes to one slot, in two cycles, rolled back to a timestamp between them. -/
theorem applyAll_rollbackToTimestamp_memory :
    ∃ after, (fromInner default : HistoryRecorder MemoryWrapper MemoryHistoryRecord).applyAll
        [(⟨0, 0, ⟨1, false⟩⟩, 4), (⟨0, 0, ⟨2, false⟩⟩, 9)] = some after ∧
      ∀ timestamp, ∃ before restored,
        (fromInner default : HistoryRecorder MemoryWrapper MemoryHistoryRecord).applyAll
            ([(⟨0, 0, ⟨1, false⟩⟩, 4), (⟨0, 0, ⟨2, false⟩⟩, 9)].take
              ([((⟨0, 0, ⟨1, false⟩⟩ : MemoryHistoryRecord), 4), (⟨0, 0, ⟨2, false⟩⟩, 9)].countP
                fun op => normalizeTimestamp op.2 < timestamp)) = some before ∧
          after.rollbackToTimestamp timestamp = some restored ∧
          (fun place : Nat × Nat => restored.inner.readSlot place.1 place.2) =
            (fun place : Nat × Nat => before.inner.readSlot place.1 place.2) ∧
          restored.history = before.history := by
  obtain ⟨after, ran, -, rolledBack⟩ :=
    applyAll_rollbackToTimestamp lawfulHistory_memoryWrapper (fromInner default) rfl
      [(⟨0, 0, ⟨1, false⟩⟩, 4), (⟨0, 0, ⟨2, false⟩⟩, 9)] (by decide) rfl
  exact ⟨after, ran, rolledBack⟩

end ZksyncEra.Multivm
