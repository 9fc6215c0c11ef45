import Mathlib

/-!
The L1 watcher's ingestion of priority operations (`eth_watch/src/lib.rs`, `loop_iteration`, and
`event_processors/priority_ops.rs`).

Each iteration reads the confirmed L1 block and the count of priority transactions the settlement
layer reports, fetches the `NewPriorityRequest` logs from the watcher's stored next block to the
confirmed one, hands them to the processor, and stores the block to start from next time. The
processor skips the operations already stored, checks that the first new one is the one it
expects, inserts the new operations the settlement layer already counts, and moves its expectation
past the last one inserted.

A log is the block it is in and the serial id of the L1 transaction it parses to; the
`transactions` table is the list of operations inserted, in order. The assertions are `none`.
Only the priority processor is modelled, with a single chain, whose logs are final.
-/

namespace ZksyncEra.EthWatch

/-- `PRIORITY_EXPIRATION`. -/
def PRIORITY_EXPIRATION : Nat := 50000

/-- A `NewPriorityRequest` log: its block and the serial id of the L1 transaction it parses to. -/
structure Log where
  serialId : Nat
  blockNumber : Nat
  deriving DecidableEq, Repr

/-- `PriorityOpsEventProcessor`. -/
structure PriorityOpsEventProcessor where
  nextExpectedPriorityId : Nat
  deriving DecidableEq, Repr

/-- What the two clients report in one iteration. -/
structure ClientView where
  /-- `confirmed_block_number` of the L1 client -/
  toBlock : Nat
  /-- `get_total_priority_txs` of the settlement layer client -/
  totalPriorityTxs : Nat
  deriving DecidableEq, Repr

/-- The watcher's rows of the database. -/
structure Storage where
  /-- `processed_events.next_block_to_process`, if the row exists -/
  nextBlockToProcess : Option Nat
  /-- the priority operations `insert_transaction_l1` stored, in order -/
  transactions : List Log
  deriving DecidableEq, Repr

/-- `get_events`: the logs of the blocks from `fromBlock` to `toBlock`, in order. -/
def getEvents (log : List Log) (fromBlock toBlock : Nat) : List Log :=
  log.filter fun event => fromBlock ≤ event.blockNumber ∧ event.blockNumber ≤ toBlock

namespace PriorityOpsEventProcessor

/-- `process_events`: the number of events processed, the processor, and the operations to insert.
The two assertions are `none`. -/
def processEvents (self : PriorityOpsEventProcessor) (processedPriorityTransactions : Nat)
    (events : List Log) : Option (Nat × PriorityOpsEventProcessor × List Log) :=
  let priorityOps := events
  let eventsCount := events.length
  match priorityOps.head?, priorityOps.getLast? with
  | some first, some last =>
    -- "There is a gap in priority ops received"; a `u64` subtraction below zero fails it as well
    if last.serialId - first.serialId + 1 ≠ priorityOps.length then none
    else
      let newOps := priorityOps.dropWhile (·.serialId < self.nextExpectedPriorityId)
      let skippedOps := eventsCount - newOps.length
      match newOps.head? with
      | none => some (eventsCount, self, [])
      | some firstNew =>
        -- "priority transaction serial id mismatch"
        if firstNew.serialId ≠ self.nextExpectedPriorityId then none
        else
          let opsToInsert := newOps.takeWhile (processedPriorityTransactions > ·.serialId)
          let self := match opsToInsert.getLast? with
            | some lastOp => ⟨lastOp.serialId + 1⟩
            | none => self
          some (skippedOps + opsToInsert.length, self, opsToInsert)
  | _, _ => some (eventsCount, self, [])

end PriorityOpsEventProcessor

/-- `loop_iteration` with the priority processor: fetch from the stored next block (or, without a
row, from `PRIORITY_EXPIRATION` blocks back), process, insert, and store the next block. -/
def loopIteration (processor : PriorityOpsEventProcessor) (storage : Storage) (log : List Log)
    (view : ClientView) : Option (PriorityOpsEventProcessor × Storage) := do
  let toBlock := view.toBlock
  -- `get_or_set_next_block_to_process`
  let fromBlock := storage.nextBlockToProcess.getD (toBlock - PRIORITY_EXPIRATION)
  let storage := { storage with nextBlockToProcess := some fromBlock }
  -- There are no new blocks so there is nothing to be done
  if fromBlock > toBlock then some (processor, storage)
  else
    let processorEvents := getEvents log fromBlock toBlock
    let (processedEventsCount, processor, opsToInsert) ←
      processor.processEvents view.totalPriorityTxs processorEvents
    let storage := { storage with transactions := storage.transactions ++ opsToInsert }
    let nextBlockToProcess ←
      if processedEventsCount = processorEvents.length then some (toBlock + 1)
      else if processedEventsCount = 0 then some fromBlock
      else (processorEvents[processedEventsCount - 1]?).map (·.blockNumber)
    some (processor, { storage with nextBlockToProcess := some nextBlockToProcess })

/-- `run`'s loop: one iteration per view, until an assertion fires. -/
def run (processor : PriorityOpsEventProcessor) (storage : Storage) (log : List Log) :
    List ClientView → Option (PriorityOpsEventProcessor × Storage)
  | [] => some (processor, storage)
  | view :: views => do
    let (processor, storage) ← loopIteration processor storage log view
    run processor storage log views

end ZksyncEra.EthWatch
