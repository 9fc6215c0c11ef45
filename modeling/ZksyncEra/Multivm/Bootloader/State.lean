import ZksyncEra.Multivm.Bootloader.Memory

/-!
`BootloaderState` of `vm_latest` (`bootloader/state.rs`): where the next transaction goes in the
bootloader memory, which transaction runs next, and the L2 blocks with their transactions, from
which `bootloader_memory` rebuilds the whole memory. Snapshots (`get_snapshot`, `apply_snapshot`)
record the counters and the lengths, and restore them by truncation. `set_fictive_l2_block` of the
default tracer (`tracers/default_tracers.rs`) closes the batch with a fictive L2 block.

A failed `unwrap`, `expect` or `assert` is `none`. The pubdata information is of a type `P`, and the
pubdata builder enters through the bytes `pubdataBytes` it encodes for the subversion; the protocol
version is used only there and for the subversion, which the state keeps directly.
-/

namespace ZksyncEra.Multivm

open MerkleTree

/-- `BootloaderStateSnapshot`: the counters of the state and the size of its last block. -/
structure BootloaderStateSnapshot where
  /-- ID of the next transaction to be executed. -/
  txToExecute : Nat
  /-- Stored L2 blocks in bootloader memory -/
  l2BlocksLen : Nat
  /-- Snapshot of the last L2 block. Only this block could be changed during the rollback -/
  lastL2Block : L2BlockSnapshot
  /-- The number of 32-byte words spent on the already included compressed bytecodes. -/
  compressedBytecodesEncoding : Nat
  /-- Current offset of the free space in the bootloader memory. -/
  freeTxOffset : Nat
  /-- Whether the pubdata information has been provided already -/
  isPubdataInformationProvided : Bool
  deriving DecidableEq, Repr

/-- `BootloaderState`: the L2 blocks of a batch with their transactions, and the counters of the
free space the next transaction takes. -/
structure BootloaderState (C P : Type) where
  /-- ID of the next transaction to be executed. -/
  txToExecute : Nat
  /-- Stored txs in bootloader memory -/
  l2Blocks : List (BootloaderL2Block C)
  /-- The number of 32-byte words spent on the already included compressed bytecodes. -/
  compressedBytecodesEncoding : Nat
  /-- Initial memory of bootloader -/
  initialMemory : BootloaderMemory
  /-- Mode of txs for execution, it can be changed once per vm lunch -/
  executionMode : TxExecutionMode
  /-- Current offset of the free space in the bootloader memory. -/
  freeTxOffset : Nat
  /-- Information about the the pubdata that will be needed to supply to the L1Messenger -/
  pubdataInformation : Option P
  /-- Protocol subversion -/
  subversion : MultiVmSubversion
  deriving DecidableEq, Repr

/-- `assert_next_block`: the next block follows the previous one in number and time (the first
block may share its timestamp) and names its hash. -/
def assertNextBlock (prevBlock : L2Block) (nextBlock : L2BlockEnv) : Bool :=
  (if prevBlock.number = 0 then prevBlock.timestamp ≤ nextBlock.timestamp
    else prevBlock.number + 1 = nextBlock.number ∧ prevBlock.timestamp < nextBlock.timestamp) ∧
  prevBlock.hash = nextBlock.prevBlockHash

/-- `find_tx_mut(tx_index)` followed by `tx.refund = refund`, over the blocks last first: the first
of them that starts at or before the index holds the transaction. -/
def setRefundFromLast {C : Type} (txIndex refund : Nat) :
    List (BootloaderL2Block C) → Option (List (BootloaderL2Block C))
  | [] => none
  | block :: rest =>
    if txIndex ≥ block.firstTxIndex then
      if txIndex - block.firstTxIndex < block.txs.length then
        let txs := block.txs.modify (txIndex - block.firstTxIndex) fun tx => { tx with refund }
        some ({ block with txs } :: rest)
      else none
    else (setRefundFromLast txIndex refund rest).map (block :: ·)

namespace BootloaderState

variable {C P : Type} (keccak256 : List UInt8 → H256) (encodeCall : C → List UInt8)

/-- `BootloaderState::new`: one open block and nothing pushed. -/
def new (executionMode : TxExecutionMode) (initialMemory : BootloaderMemory)
    (firstL2Block : L2BlockEnv) (subversion : MultiVmSubversion) : BootloaderState C P :=
  ⟨0, [BootloaderL2Block.new firstL2Block 0], 0, initialMemory, executionMode, 0, none, subversion⟩

variable (self : BootloaderState C P)

def lastL2Block : Option (BootloaderL2Block C) := self.l2Blocks.getLast?

/-- `free_tx_index`: the index the next pushed transaction gets. -/
def freeTxIndex : Option Nat :=
  self.lastL2Block.map fun l2Block => l2Block.firstTxIndex + l2Block.txs.length

/-- `current_tx`: the transaction before the next one to execute. -/
def currentTx : Option Nat := if self.txToExecute = 0 then none else some (self.txToExecute - 1)

/-- `find_tx`: the last block that starts at or before the index holds the transaction. -/
def findTx (txIndex : Nat) : Option (BootloaderTx C) :=
  (self.l2Blocks.reverse.find? fun block => txIndex ≥ block.firstTxIndex).bind fun block =>
    block.txs[txIndex - block.firstTxIndex]?

/-- `set_refund_for_current_tx`: the refund of the last transaction moved to execution. -/
def setRefundForCurrentTx (refund : Nat) : Option (BootloaderState C P) := do
  let currentTx ← self.currentTx
  let l2Blocks ← setRefundFromLast currentTx refund self.l2Blocks.reverse
  pure { self with l2Blocks := l2Blocks.reverse }

/-- `set_pubdata_input`, which panics when the information is already set. -/
def setPubdataInput (info : P) : Option (BootloaderState C P) :=
  if self.pubdataInformation.isSome then none else some { self with pubdataInformation := some info }

/-- `push_l2_block`: a block opened at the free index, without the checks of
`start_new_l2_block`. -/
def pushL2Block (l2Block : L2BlockEnv) : Option (BootloaderState C P) := do
  let freeTxIndex ← self.freeTxIndex
  pure { self with l2Blocks := self.l2Blocks ++ [BootloaderL2Block.new l2Block freeTxIndex] }

/-- `start_new_l2_block`: a new block on top of a block with transactions, following it. -/
def startNewL2Block (l2Block : L2BlockEnv) : Option (BootloaderState C P) := do
  let lastBlock ← self.lastL2Block
  if lastBlock.txs.isEmpty then none
  else if !assertNextBlock (lastBlock.l2Block keccak256) l2Block then none
  else self.pushL2Block l2Block

/-- `last_mut_l2_block().push_tx(tx)`. -/
def pushTxToLastL2Block (tx : BootloaderTx C) : Option (BootloaderState C P) := do
  let lastBlock ← self.lastL2Block
  pure { self with l2Blocks := self.l2Blocks.dropLast ++ [lastBlock.pushTx keccak256 tx] }

/-- `push_tx`: the transaction is written at the free offset, into the last block; returns the
memory it writes. -/
def pushTx (hash : H256) (encoded : List U256) (predefinedOverhead predefinedRefund : Nat)
    (compressedBytecodes : List C) (trustedErgsLimit : U256) :
    Option (BootloaderMemory × BootloaderState C P) := do
  let txOffset := self.freeTxOffset
  let bootloaderTx := BootloaderTx.new hash encoded predefinedRefund predefinedOverhead
    trustedErgsLimit compressedBytecodes txOffset
  let lastBlock ← self.lastL2Block
  let freeTxIndex ← self.freeTxIndex
  let (memory, compressedBytecodeSize) ← applyTxToMemory encodeCall [] bootloaderTx lastBlock
    freeTxIndex self.freeTxOffset self.compressedBytecodesEncoding self.executionMode
    lastBlock.txs.isEmpty self.subversion
  let state := { self with
    compressedBytecodesEncoding := self.compressedBytecodesEncoding + compressedBytecodeSize
    freeTxOffset := txOffset + bootloaderTx.encodedLen }
  let state ← state.pushTxToLastL2Block keccak256 bootloaderTx
  pure (memory, state)

/-- The loop of `bootloader_memory` over the transactions of one block, with the memory, the
offset of the next transaction, the words of compressed bytecodes so far and the index of the next
transaction. -/
def applyL2BlockTxsToMemory (l2Block : BootloaderL2Block C)
    (start : BootloaderMemory × Nat × Nat × Nat) : Option (BootloaderMemory × Nat × Nat × Nat) :=
  l2Block.txs.zipIdx.foldlM
    (fun (memory, offset, compressedBytecodesOffset, txIndex) (tx, num) => do
      let (memory, compressedBytecodesSize) ← applyTxToMemory encodeCall memory tx l2Block txIndex
        offset compressedBytecodesOffset self.executionMode (num == 0) self.subversion
      pure (memory, offset + tx.encodedLen, compressedBytecodesOffset + compressedBytecodesSize,
        txIndex + 1))
    start

/-- The loop of `bootloader_memory` over the blocks: the transactions of each block, and the block
itself where it has none. -/
def applyL2BlocksToMemory : Option (BootloaderMemory × Nat × Nat × Nat) :=
  self.l2Blocks.foldlM
    (fun acc l2Block => do
      let (memory, offset, compressedBytecodesOffset, txIndex) ←
        self.applyL2BlockTxsToMemory encodeCall l2Block acc
      let memory :=
        if l2Block.txs.isEmpty then applyL2Block memory l2Block txIndex self.subversion else memory
      pure (memory, offset, compressedBytecodesOffset, txIndex))
    (self.initialMemory, 0, 0, 0)

/-- `bootloader_memory`: all transactions applied to the initial memory, then the pubdata, given
the bytes the pubdata builder encodes. -/
def bootloaderMemory (pubdataBytes : P → MultiVmSubversion → List UInt8) :
    Option BootloaderMemory := do
  let (memory, _) ← self.applyL2BlocksToMemory encodeCall
  let pubdataInformation ← self.pubdataInformation
  applyPubdataToMemory memory (pubdataBytes pubdataInformation self.subversion) self.subversion

/-- `move_tx_to_execute_pointer`: the next transaction to execute, which must have been pushed. -/
def moveTxToExecutePointer : Option (BootloaderState C P × Nat) := do
  let freeTxIndex ← self.freeTxIndex
  if self.txToExecute < freeTxIndex then
    pure ({ self with txToExecute := self.txToExecute + 1 }, self.txToExecute)
  else none

/-- `get_tx_description_offset`: the slot of a transaction's description. -/
def getTxDescriptionOffset (txIndex : Nat) : Option Nat :=
  (self.findTx txIndex).map fun tx => Multivm.getTxDescriptionOffset self.subversion + tx.offset

/-- `insert_fictive_l2_block`: a block after the last one, unless the last one is empty. -/
def insertFictiveL2Block : Option (BootloaderState C P × BootloaderL2Block C) := do
  let block ← self.lastL2Block
  let state ← if !block.txs.isEmpty then
      self.startNewL2Block keccak256
        ⟨block.number + 1, block.timestamp + 1, block.getHash keccak256, 1⟩
    else pure self
  let last ← state.lastL2Block
  pure (state, last)

/-- `get_snapshot`, which panics on a state without blocks. -/
def getSnapshot : Option BootloaderStateSnapshot := do
  let lastL2Block ← self.lastL2Block
  pure ⟨self.txToExecute, self.l2Blocks.length, lastL2Block.makeSnapshot,
    self.compressedBytecodesEncoding, self.freeTxOffset, self.pubdataInformation.isSome⟩

/-- `apply_snapshot`: the counters are restored and the blocks truncated. A snapshot from the
future panics, and so does one taken with pubdata information when the state has none. -/
def applySnapshot (snapshot : BootloaderStateSnapshot) : Option (BootloaderState C P) := do
  let self := { self with
    txToExecute := snapshot.txToExecute
    compressedBytecodesEncoding := snapshot.compressedBytecodesEncoding
    freeTxOffset := snapshot.freeTxOffset }
  let l2Blocks ← match compare self.l2Blocks.length snapshot.l2BlocksLen with
    | .gt => some (self.l2Blocks.take snapshot.l2BlocksLen)
    | .lt => none
    | .eq => some self.l2Blocks
  let lastBlock ← l2Blocks.getLast?
  let lastBlock ← lastBlock.applySnapshot snapshot.lastL2Block
  let l2Blocks := l2Blocks.dropLast ++ [lastBlock]
  let pubdataInformation ← if !snapshot.isPubdataInformationProvided then some none
    else if self.pubdataInformation.isSome then some self.pubdataInformation else none
  pure { self with l2Blocks := l2Blocks, pubdataInformation := pubdataInformation }

/-- `set_fictive_l2_block` of the default tracer: the fictive block is inserted, and the memory it
writes at the free transaction index is returned. -/
def setFictiveL2Block : Option (BootloaderState C P × BootloaderMemory) := do
  let txsIndex ← self.freeTxIndex
  let (state, l2Block) ← self.insertFictiveL2Block keccak256
  pure (state, applyL2Block [] l2Block txsIndex self.subversion)

end BootloaderState

end ZksyncEra.Multivm
