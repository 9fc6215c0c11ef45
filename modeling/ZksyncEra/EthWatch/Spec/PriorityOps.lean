import ZksyncEra.EthWatch.PriorityOps
import ZksyncEra.Lib.Consecutive

/-!
Ingestion of priority operations over whole runs of the watcher.

The log's serial ids are consecutive in log order and its blocks do not decrease. The watcher then
keeps one invariant (`Tracks`): the operations inserted so far are those from the first expected
id up to the one it expects next, each once and in order; and the stored next block is at most
the block of every operation it has not inserted. Under it, every window of blocks it fetches has
consecutive serial ids, starting at or below the expected one, so neither assertion fires; each
iteration inserts every operation that its confirmed block has reached and that the settlement
layer counts; and the block it stores keeps the invariant, whichever of its three cases it takes.

The invariant needs a stored next block to start from. Without one, the watcher starts
`PRIORITY_EXPIRATION` blocks below the confirmed block and can miss the operation it expects.
-/

namespace ZksyncEra.EthWatch

open PriorityOpsEventProcessor

/-! ### The log -/

section Log

variable {log : List Log} {s0 : Nat} (consecutive : log.map Log.serialId = List.range' s0 log.length)
include consecutive

theorem serialId_getElem (i : Nat) (index : i < log.length) : log[i].serialId = s0 + i := by
  have keyAt := congrArg (·[i]?) consecutive
  simp only [List.getElem?_map, List.getElem?_eq_getElem index, List.getElem?_range' index,
    Option.map_some, Option.some.injEq, Nat.one_mul] at keyAt
  exact keyAt

theorem serialId_bounds {op : Log} (member : op ∈ log) :
    s0 ≤ op.serialId ∧ op.serialId < s0 + log.length := by
  have inRange : op.serialId ∈ List.range' s0 log.length :=
    consecutive ▸ List.mem_map_of_mem member
  simpa [List.mem_range'_1] using inRange

theorem exists_of_serialId {s : Nat} (above : s0 ≤ s) (below : s < s0 + log.length) :
    ∃ op ∈ log, op.serialId = s := by
  have inRange : s ∈ log.map Log.serialId := by
    rw [consecutive, List.mem_range'_1]
    exact ⟨above, below⟩
  simpa using inRange

/-- An operation is determined by its serial id. -/
theorem eq_of_serialId_eq {a b : Log} (memberA : a ∈ log) (memberB : b ∈ log)
    (same : a.serialId = b.serialId) : a = b := by
  obtain ⟨i, index, rfl⟩ := List.mem_iff_getElem.mp memberA
  obtain ⟨j, jndex, rfl⟩ := List.mem_iff_getElem.mp memberB
  rw [serialId_getElem consecutive i index, serialId_getElem consecutive j jndex] at same
  have : i = j := by omega
  subst this
  rfl

/-- A later operation is in a block at least as high. -/
theorem blockNumber_le_of_serialId_lt (ordered : log.Pairwise fun a b => a.blockNumber ≤ b.blockNumber)
    {a b : Log} (memberA : a ∈ log) (memberB : b ∈ log) (earlier : a.serialId < b.serialId) :
    a.blockNumber ≤ b.blockNumber := by
  obtain ⟨i, index, rfl⟩ := List.mem_iff_getElem.mp memberA
  obtain ⟨j, jndex, rfl⟩ := List.mem_iff_getElem.mp memberB
  rw [serialId_getElem consecutive i index, serialId_getElem consecutive j jndex] at earlier
  exact List.pairwise_iff_getElem.mp ordered i j index jndex (by omega)

/-- Rows from the log whose ids run from `first` to `next` hold every operation of the log
with an id in that range. -/
theorem mem_of_serialId_lt {added : List Log} {first next : Nat}
    (addedIds : added.map Log.serialId = List.range' first (next - first))
    (addedFromLog : ∀ row ∈ added, row ∈ log) {op : Log} (member : op ∈ log)
    (above : first ≤ op.serialId) (below : op.serialId < next) : op ∈ added := by
  have inRange : op.serialId ∈ added.map Log.serialId := by
    rw [addedIds, List.mem_range'_1]
    omega
  obtain ⟨row, rowIn, sameId⟩ := List.mem_map.mp inRange
  rwa [eq_of_serialId_eq consecutive (addedFromLog row rowIn) member sameId] at rowIn

/-- The window of blocks from one at most the block of every operation not yet expected has
consecutive serial ids, from one at or below the expected id. -/
theorem getEvents_consecutive (ordered : log.Pairwise fun a b => a.blockNumber ≤ b.blockNumber)
    (fromBlock toBlock next : Nat) (stored : s0 ≤ next)
    (unseen : ∀ op ∈ log, next ≤ op.serialId → fromBlock ≤ op.blockNumber) :
    ∃ x, x ≤ next ∧ (getEvents log fromBlock toBlock).map Log.serialId =
      List.range' x (getEvents log fromBlock toBlock).length := by
  obtain ⟨x, -, window⟩ := List.map_eq_range'_of_infix
    (List.filter_interval_infix Log.blockNumber ordered fromBlock toBlock) consecutive
  by_cases atMost : x ≤ next
  · exact ⟨x, atMost, window⟩
  by_cases empty : getEvents log fromBlock toBlock = []
  · exact ⟨next, le_refl _, by simp [empty]⟩
  -- otherwise the expected operation lies before the window's first one but not before the
  -- window's first block, so it is in the window, below the window's first id
  exfalso
  have nonempty : 0 < (getEvents log fromBlock toBlock).length := List.length_pos_iff.mpr empty
  obtain ⟨first, found, firstId⟩ := List.getElem?_of_map_eq_range' window nonempty
  have firstIn : first ∈ getEvents log fromBlock toBlock := List.mem_of_getElem? found
  obtain ⟨inLog, -, firstBlock⟩ : first ∈ log ∧ fromBlock ≤ first.blockNumber ∧
      first.blockNumber ≤ toBlock := by simpa [getEvents] using firstIn
  obtain ⟨expected, expectedIn, expectedId⟩ := exists_of_serialId consecutive stored
    (by have := (serialId_bounds consecutive inLog).2; omega)
  have expectedWindow : expected ∈ getEvents log fromBlock toBlock := by
    have early := blockNumber_le_of_serialId_lt consecutive ordered expectedIn inLog
      (by omega)
    simp only [getEvents, List.mem_filter, decide_eq_true_eq]
    exact ⟨expectedIn, unseen expected expectedIn expectedId.ge, by omega⟩
  have inRange : expected.serialId ∈ List.range' x (getEvents log fromBlock toBlock).length :=
    window ▸ List.mem_map_of_mem expectedWindow
  rw [List.mem_range'_1] at inRange
  omega

end Log

/-! ### One batch of events -/

/-- On events with consecutive serial ids from `x`, at most the expected id, the processor skips
the `next - x` stored ones, inserts the new ones the settlement layer counts, and expects the id
after the last one inserted. -/
theorem processEvents_of_consecutive (processor : PriorityOpsEventProcessor) (total : Nat)
    (events : List Log) (x : Nat)
    (consecutive : events.map Log.serialId = List.range' x events.length)
    (atMost : x ≤ processor.nextExpectedPriorityId) :
    processor.processEvents total events =
      some (min (processor.nextExpectedPriorityId - x) events.length +
          min (total - processor.nextExpectedPriorityId)
            (events.length - (processor.nextExpectedPriorityId - x)),
        ⟨processor.nextExpectedPriorityId + min (total - processor.nextExpectedPriorityId)
            (events.length - (processor.nextExpectedPriorityId - x))⟩,
        (events.drop (processor.nextExpectedPriorityId - x)).take
          (total - processor.nextExpectedPriorityId)) := by
  obtain ⟨next⟩ := processor
  simp only at atMost ⊢
  rcases Nat.eq_zero_or_pos events.length with empty | nonempty
  · rw [List.length_eq_zero_iff] at empty
    subst empty
    simp [processEvents]
  obtain ⟨first, firstAt, firstId⟩ := List.getElem?_of_map_eq_range' consecutive nonempty
  obtain ⟨last, lastAt, lastId⟩ :=
    List.getElem?_of_map_eq_range' consecutive (Nat.sub_lt nonempty Nat.one_pos)
  have head : events.head? = some first := by rw [List.head?_eq_getElem?]; exact firstAt
  have getLast : events.getLast? = some last := by rw [List.getLast?_eq_getElem?]; exact lastAt
  -- the gap check passes: the ids run from `x` to `x + length - 1`
  have noGap : ¬ (last.serialId - first.serialId + 1 ≠ events.length) := by omega
  have skipped := List.dropWhile_lt_of_map_eq_range' consecutive atMost
  simp only [processEvents, head, getLast, noGap, if_false, skipped]
  rcases Nat.lt_or_ge (next - x) events.length with fresh | stale
  · -- the first new operation is the expected one
    obtain ⟨firstNew, firstNewAt, firstNewId⟩ := List.getElem?_of_map_eq_range' consecutive fresh
    have newHead : (events.drop (next - x)).head? = some firstNew := by
      rw [List.head?_drop]
      exact firstNewAt
    have expected : ¬ (firstNew.serialId ≠ next) := by omega
    have newConsecutive : (events.drop (next - x)).map Log.serialId =
        List.range' next (events.length - (next - x)) := by
      rw [List.map_drop, consecutive, List.drop_range', Nat.mul_one, Nat.add_sub_cancel' atMost]
    simp only [newHead, expected, if_false, List.takeWhile_gt_of_map_eq_range' newConsecutive,
      List.length_take, List.length_drop, Nat.min_eq_left fresh.le]
    have inserted := List.map_take_drop_of_map_eq_range' consecutive (next - x) (total - next)
    rw [Nat.add_sub_cancel' atMost] at inserted
    rcases Nat.eq_zero_or_pos (min (total - next) (events.length - (next - x))) with noneNew | someNew
    · -- nothing to insert: the expectation stays
      have nothing : (events.drop (next - x)).take (total - next) = [] := by
        rw [← List.length_eq_zero_iff, List.length_take, List.length_drop]
        exact noneNew
      simp only [nothing, List.getLast?_nil, noneNew, Nat.add_zero]
      congr 2
      omega
    · obtain ⟨lastNew, lastNewAt, lastNewId⟩ :=
        List.getElem?_of_map_eq_range' inserted (Nat.sub_lt someNew Nat.one_pos)
      have newLast : ((events.drop (next - x)).take (total - next)).getLast? = some lastNew := by
        rw [List.getLast?_eq_getElem?, List.length_of_map_eq_range' inserted]
        exact lastNewAt
      simp only [newLast, Option.some.injEq, Prod.mk.injEq]
      exact ⟨by omega, congrArg _ (by omega), trivial⟩
  · -- every event is already stored
    have noneNew : (events.drop (next - x)).head? = none := by
      rw [List.head?_eq_none_iff, List.drop_eq_nil_iff]
      exact stale
    have nothing : (events.drop (next - x)).take (total - next) = [] := by
      rw [List.drop_eq_nil_of_le stale, List.take_nil]
    simp only [noneNew, nothing, Nat.min_eq_right stale, Nat.sub_eq_zero_of_le stale, Nat.min_zero,
      Nat.add_zero]

/-! ### One iteration -/

/-- `loop_iteration` once the stored block has been reached: the processor's result, and the block
stored after the events it processed. -/
theorem loopIteration_of_processEvents {processor : PriorityOpsEventProcessor} {storage : Storage}
    {log : List Log} {view : ClientView} {c : Nat} (cursorIs : storage.nextBlockToProcess = some c)
    (reached : c ≤ view.toBlock) {processed : Nat} {processor' : PriorityOpsEventProcessor}
    {ops : List Log} (result : processor.processEvents view.totalPriorityTxs
      (getEvents log c view.toBlock) = some (processed, processor', ops)) :
    loopIteration processor storage log view =
      (if processed = (getEvents log c view.toBlock).length then some (view.toBlock + 1)
        else if processed = 0 then some c
        else ((getEvents log c view.toBlock)[processed - 1]?).map (·.blockNumber)).map
      fun nextBlock => (processor', ⟨some nextBlock, storage.transactions ++ ops⟩) := by
  have notAhead : ¬ c > view.toBlock := by omega
  simp only [loopIteration, cursorIs, Option.getD_some, notAhead, if_false, result,
    Option.bind_eq_bind, Option.bind_some]
  by_cases all : processed = (getEvents log c view.toBlock).length
  · simp only [if_pos all, Option.map_some]
  by_cases zero : processed = 0
  · simp only [if_neg all, if_pos zero, Option.map_some]
  · simp only [if_neg all, if_neg zero]
    cases (getEvents log c view.toBlock)[processed - 1]? <;> rfl

/-- What a run keeps, for the operations from `first` on and the rows `previous` the table held
before: the rows it added are the operations from `first` up to the expected one, once each and
in order, all from the log; and the stored next block is at most the block of every operation not
yet expected. -/
structure Tracks (log : List Log) (first : Nat) (previous : List Log)
    (processor : PriorityOpsEventProcessor) (storage : Storage) : Prop where
  first_le : first ≤ processor.nextExpectedPriorityId
  added : ∃ added, storage.transactions = previous ++ added ∧
    added.map Log.serialId = List.range' first (processor.nextExpectedPriorityId - first) ∧
    ∀ op ∈ added, op ∈ log
  cursor : ∃ c, storage.nextBlockToProcess = some c ∧
    ∀ op ∈ log, processor.nextExpectedPriorityId ≤ op.serialId → c ≤ op.blockNumber

/-- The operations a view makes due: from `first` on, in a block the confirmed one has reached,
and counted by the settlement layer. -/
def Due (first : Nat) (view : ClientView) (op : Log) : Prop :=
  first ≤ op.serialId ∧ op.blockNumber ≤ view.toBlock ∧ op.serialId < view.totalPriorityTxs

/-- An operation not yet expected, in a block from the stored one up to the confirmed one, is in
the window fetched. -/
theorem mem_getEvents_of_unseen {c next toBlock : Nat}
    (unseen : ∀ op ∈ log, next ≤ op.serialId → c ≤ op.blockNumber) {op : Log} (member : op ∈ log)
    (notExpected : next ≤ op.serialId) (reached : op.blockNumber ≤ toBlock) :
    op ∈ getEvents log c toBlock := by
  simp only [getEvents, List.mem_filter, decide_eq_true_eq]
  exact ⟨member, unseen op member notExpected, reached⟩

section Run

variable {log : List Log} {s0 : Nat} (consecutive : log.map Log.serialId = List.range' s0 log.length)
  (ordered : log.Pairwise fun a b => a.blockNumber ≤ b.blockNumber) {first : Nat}
  {previous : List Log}
include consecutive ordered

/-- The block stored after processing is at most the block of every operation still not expected,
in each of its three cases: past the confirmed block once every event is processed, the stored
block when none is, and otherwise the block of the last event processed, which is the last
operation inserted. -/
theorem nextBlock_unseen {events : List Log} {x next c toBlock k processed : Nat}
    (window : events.map Log.serialId = List.range' x events.length) (atMost : x ≤ next)
    (inWindow : ∀ op ∈ log, next ≤ op.serialId → op.blockNumber ≤ toBlock → op ∈ events)
    (windowFromLog : ∀ e ∈ events, e ∈ log)
    (unseen : ∀ op ∈ log, next ≤ op.serialId → c ≤ op.blockNumber)
    (inserted : k ≤ events.length - (next - x))
    (processedIs : processed = min (next - x) events.length + k) :
    ∃ nextBlock, (if processed = events.length then some (toBlock + 1)
        else if processed = 0 then some c
        else (events[processed - 1]?).map (·.blockNumber)) = some nextBlock ∧
      ∀ op ∈ log, next + k ≤ op.serialId → nextBlock ≤ op.blockNumber := by
  by_cases all : processed = events.length
  · refine ⟨toBlock + 1, if_pos all, fun op member notExpected => ?_⟩
    by_contra! early
    have inRange := serialId_bounds window (inWindow op member (by omega) (by omega))
    omega
  by_cases zero : processed = 0
  · exact ⟨c, by rw [if_neg all, if_pos zero], fun op member notExpected =>
      unseen op member (by omega)⟩
  · -- some but not all processed: the expected id was inside the window
    have index : processed - 1 < events.length := by omega
    obtain ⟨e, eAt, eId⟩ := List.getElem?_of_map_eq_range' window index
    refine ⟨e.blockNumber, by rw [if_neg all, if_neg zero, eAt, Option.map_some],
      fun op member notExpected => ?_⟩
    exact blockNumber_le_of_serialId_lt consecutive ordered
      (windowFromLog e (List.mem_of_getElem? eAt)) member (by omega)

/-- One iteration from a tracking state succeeds, keeps tracking, only moves the expectation
forward, and moves it past every operation the view makes due. -/
theorem loopIteration_tracks (stored : s0 ≤ first) {processor : PriorityOpsEventProcessor}
    {storage : Storage} (tracks : Tracks log first previous processor storage) (view : ClientView) :
    ∃ processor' storage', loopIteration processor storage log view = some (processor', storage') ∧
      Tracks log first previous processor' storage' ∧
      processor.nextExpectedPriorityId ≤ processor'.nextExpectedPriorityId ∧
      ∀ op ∈ log, Due first view op → op.serialId < processor'.nextExpectedPriorityId := by
  obtain ⟨first_le, ⟨added, table, addedIds, addedFromLog⟩, ⟨c, cursorIs, unseen⟩⟩ := tracks
  obtain ⟨next⟩ := processor
  simp only at first_le addedIds unseen ⊢
  by_cases ahead : c > view.toBlock
  · -- no new block: the state stays, and every due operation is already expected
    have same : loopIteration ⟨next⟩ storage log view = some (⟨next⟩, storage) := by
      simp only [loopIteration, cursorIs, Option.getD_some, ahead, if_true]
      rw [← cursorIs]
    refine ⟨⟨next⟩, storage, same, ⟨first_le, ⟨added, table, addedIds, addedFromLog⟩,
      ⟨c, cursorIs, unseen⟩⟩, le_refl _, ?_⟩
    rintro op member ⟨-, reached, -⟩
    by_contra! notExpected
    have := unseen op member notExpected
    omega
  -- the window from the stored block is consecutive from at most the expected id
  obtain ⟨x, atMost, window⟩ := getEvents_consecutive consecutive ordered c view.toBlock next
    (stored.trans first_le) unseen
  have processed := processEvents_of_consecutive ⟨next⟩ view.totalPriorityTxs _ x window atMost
  simp only at processed
  rw [loopIteration_of_processEvents cursorIs (by omega) processed]
  have inWindow : ∀ op ∈ log, next ≤ op.serialId → op.blockNumber ≤ view.toBlock →
      op ∈ getEvents log c view.toBlock :=
    fun _ member notExpected reached => mem_getEvents_of_unseen unseen member notExpected reached
  have windowFromLog : ∀ e ∈ getEvents log c view.toBlock, e ∈ log :=
    fun _ member => (List.mem_filter.mp member).1
  generalize getEvents log c view.toBlock = events at window inWindow windowFromLog ⊢
  generalize kIs : min (view.totalPriorityTxs - next) (events.length - (next - x)) = k
  -- the operations inserted are the next `k` ones, from the log
  have opsIds : ((events.drop (next - x)).take (view.totalPriorityTxs - next)).map Log.serialId =
      List.range' next k := by
    rw [List.map_take_drop_of_map_eq_range' window, Nat.add_sub_cancel' atMost, kIs]
  have opsFromLog : ∀ op ∈ (events.drop (next - x)).take (view.totalPriorityTxs - next), op ∈ log :=
    fun op member => windowFromLog op (List.mem_of_mem_drop (List.mem_of_mem_take member))
  obtain ⟨nextBlock, nextBlockIs, nextBlockUnseen⟩ := nextBlock_unseen consecutive ordered (k := k)
    window atMost inWindow windowFromLog unseen (by omega) rfl
  rw [nextBlockIs, Option.map_some]
  have joined : List.range' first (next - first) ++ List.range' next k =
      List.range' first (next + k - first) := by
    have := List.range'_append_1 (s := first) (m := next - first) (n := k)
    rwa [Nat.add_sub_cancel' first_le, show next - first + k = next + k - first by omega] at this
  refine ⟨⟨next + k⟩, _, rfl,
    ⟨show first ≤ next + k by omega,
      ⟨added ++ (events.drop (next - x)).take (view.totalPriorityTxs - next),
        by rw [table, List.append_assoc], ?_, ?_⟩,
      ⟨nextBlock, rfl, nextBlockUnseen⟩⟩,
    show next ≤ next + k by omega, ?_⟩
  · show _ = List.range' first (next + k - first)
    rw [List.map_append, addedIds, opsIds, joined]
  · intro op member
    rcases List.mem_append.mp member with old | new
    · exact addedFromLog op old
    · exact opsFromLog op new
  · -- a due operation not yet expected is in the window, within the `k` inserted
    rintro op member ⟨-, reached, counted⟩
    show op.serialId < next + k
    by_cases expected : op.serialId < next
    · omega
    · have inRange := serialId_bounds window (inWindow op member (by omega) reached)
      omega

/-- A run from a tracking state succeeds and keeps tracking, and its final expectation is past
every operation any of its views made due. -/
theorem run_tracks (stored : s0 ≤ first) (views : List ClientView) :
    ∀ {processor : PriorityOpsEventProcessor} {storage : Storage},
      Tracks log first previous processor storage →
      ∃ processor' storage', run processor storage log views = some (processor', storage') ∧
        Tracks log first previous processor' storage' ∧
        processor.nextExpectedPriorityId ≤ processor'.nextExpectedPriorityId ∧
        ∀ view ∈ views, ∀ op ∈ log, Due first view op →
          op.serialId < processor'.nextExpectedPriorityId := by
  induction views with
  | nil =>
    intro processor storage tracks
    exact ⟨processor, storage, rfl, tracks, le_refl _, by simp⟩
  | cons view views ih =>
    intro processor storage tracks
    obtain ⟨processor₁, storage₁, stepped, tracks₁, forward₁, due₁⟩ :=
      loopIteration_tracks consecutive ordered stored tracks view
    obtain ⟨processor₂, storage₂, ran, tracks₂, forward₂, due₂⟩ := ih tracks₁
    refine ⟨processor₂, storage₂, ?_, tracks₂, forward₁.trans forward₂,
      List.forall_mem_cons.mpr ⟨fun op member due => (due₁ op member due).trans_le forward₂, due₂⟩⟩
    rw [run, stepped]
    exact ran

end Run

/-- Priority operations are ingested once each and in order. From a stored next block at most the
block of every operation from `first` on, the watcher's loop never fires an assertion; the rows it
adds to the table are the operations from `first` up to the one it expects at the end, once each,
in increasing order, all from the log; and every operation from `first` on that a view's
confirmed block reached and that the settlement layer counted is among them. -/
theorem priorityOps_ingested_once_in_order (log : List Log) (s0 : Nat)
    (consecutive : log.map Log.serialId = List.range' s0 log.length)
    (ordered : log.Pairwise fun a b => a.blockNumber ≤ b.blockNumber) (first cursor : Nat)
    (stored : s0 ≤ first) (unseen : ∀ op ∈ log, first ≤ op.serialId → cursor ≤ op.blockNumber)
    (previous : List Log) (views : List ClientView) :
    ∃ processor storage added,
      run ⟨first⟩ ⟨some cursor, previous⟩ log views = some (processor, storage) ∧
      storage.transactions = previous ++ added ∧
      added.map Log.serialId = List.range' first (processor.nextExpectedPriorityId - first) ∧
      (∀ op ∈ added, op ∈ log) ∧
      ∀ view ∈ views, ∀ op ∈ log, first ≤ op.serialId → op.blockNumber ≤ view.toBlock →
        op.serialId < view.totalPriorityTxs → op ∈ added := by
  have start : Tracks log first previous ⟨first⟩ ⟨some cursor, previous⟩ :=
    ⟨le_refl _, ⟨[], by simp, by simp, by simp⟩, ⟨cursor, rfl, unseen⟩⟩
  obtain ⟨processor, storage, ran, ⟨-, ⟨added, table, addedIds, addedFromLog⟩, -⟩, -, due⟩ :=
    run_tracks consecutive ordered stored views start
  refine ⟨processor, storage, added, ran, table, addedIds, addedFromLog, ?_⟩
  intro view member op opIn above reached counted
  exact mem_of_serialId_lt consecutive addedIds addedFromLog opIn above
    (due view member op opIn ⟨above, reached, counted⟩)

/-- Two operations in blocks 1 and 2, from a stored block 0, and one view confirming both. -/
theorem priorityOps_ingested_two_blocks :
    ∃ processor storage added,
      run ⟨0⟩ ⟨some 0, []⟩ [⟨0, 1⟩, ⟨1, 2⟩] [⟨2, 2⟩] = some (processor, storage) ∧
      storage.transactions = [] ++ added ∧
      added.map Log.serialId = List.range' 0 (processor.nextExpectedPriorityId - 0) ∧
      (∀ op ∈ added, op ∈ ([⟨0, 1⟩, ⟨1, 2⟩] : List Log)) ∧
      ∀ view ∈ ([⟨2, 2⟩] : List ClientView), ∀ op ∈ ([⟨0, 1⟩, ⟨1, 2⟩] : List Log),
        0 ≤ op.serialId → op.blockNumber ≤ view.toBlock → op.serialId < view.totalPriorityTxs →
        op ∈ added :=
  priorityOps_ingested_once_in_order [⟨0, 1⟩, ⟨1, 2⟩] 0 (by decide) (by decide) 0 0 (le_refl 0)
    (by decide) [] [⟨2, 2⟩]

/-- Without a stored next block the watcher starts `PRIORITY_EXPIRATION` blocks below the
confirmed one: operation 0, in block 1, is never fetched, the first operation fetched is 1, and
the serial id check fails. -/
theorem run_without_stored_block_mismatch :
    run ⟨0⟩ ⟨none, []⟩ [⟨0, 1⟩, ⟨1, 60000⟩] [⟨60001, 2⟩] = none := by
  decide

end ZksyncEra.EthWatch
