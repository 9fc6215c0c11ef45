import ZksyncEra.Lib.Lists
import ZksyncEra.Multivm.Bootloader.State

/-!
What `bootloader_memory` writes, transaction by transaction. Its two nested loops are one loop over
the transactions of all blocks, each with the header of its block and whether it opens it
(`placed`), as long as only the last block may be empty; that loop writes each transaction's memory
after the ones before it (`applyL2BlocksToMemory_eq`).

Refunds are the one field that changes in place. A transaction's writes depend on its refund only
through the word of its refund slot (`overwriteRefund`), so the writes of a state are those of the
state with all refunds erased, with each refund slot overwritten by the refund
(`txWrites_eraseRefunds`, `overwriteRefund_txWrites`).

`Layout` is what `push_tx` and `start_new_l2_block` keep: the writes of all transactions, refunds
erased, are the slices `push_tx` returned when each was pushed, and the counters of the state are
where that loop ends.
-/

namespace ZksyncEra.Multivm

open MerkleTree

/-- A transaction's writes with the word of its refund slot, the third write of
`apply_tx_to_memory`, set to `refund`. -/
def overwriteRefund (writes : BootloaderMemory) (refund : Nat) : BootloaderMemory :=
  writes.modify 2 fun (slot, _) => (slot, BitVec.ofNat 256 refund)

@[simp] theorem overwriteRefund_overwriteRefund (writes : BootloaderMemory) (refund other : Nat) :
    overwriteRefund (overwriteRefund writes refund) other = overwriteRefund writes other := by
  simp only [overwriteRefund, List.modify_modify_eq]
  rfl

@[simp] theorem length_overwriteRefund (writes : BootloaderMemory) (refund : Nat) :
    (overwriteRefund writes refund).length = writes.length := by
  simp [overwriteRefund]

/-- The transaction with its refund set to zero. -/
def BootloaderTx.eraseRefund {C : Type} (self : BootloaderTx C) : BootloaderTx C :=
  { self with refund := 0 }

namespace BootloaderL2Block

variable {C : Type} (self : BootloaderL2Block C)

/-- The fields of a block that its memory writes read. -/
def header : BootloaderL2Block C := { self with txsRollingHash := 0, firstTxIndex := 0, txs := [] }

/-- The block with the refunds of its transactions set to zero. -/
def eraseRefunds : BootloaderL2Block C := { self with txs := self.txs.map BootloaderTx.eraseRefund }

@[simp] theorem header_eraseRefunds : self.eraseRefunds.header = self.header := rfl

@[simp] theorem txs_eraseRefunds : self.eraseRefunds.txs = self.txs.map BootloaderTx.eraseRefund :=
  rfl

@[simp] theorem firstTxIndex_eraseRefunds : self.eraseRefunds.firstTxIndex = self.firstTxIndex := rfl

end BootloaderL2Block

/-- A transaction with the header of its block, and whether it is the first of the block. -/
structure PlacedTx (C : Type) where
  tx : BootloaderTx C
  block : BootloaderL2Block C
  first : Bool

/-- The transactions of a block, placed. -/
def BootloaderL2Block.placed {C : Type} (self : BootloaderL2Block C) : List (PlacedTx C) :=
  self.txs.zipIdx.map fun (tx, num) => ⟨tx, self.header, num == 0⟩

section Pushing

variable {C : Type} (keccak256 : List UInt8 → H256) (self : BootloaderL2Block C) (tx : BootloaderTx C)

@[simp] theorem BootloaderL2Block.header_pushTx : (self.pushTx keccak256 tx).header = self.header :=
  rfl

@[simp] theorem BootloaderL2Block.txs_pushTx : (self.pushTx keccak256 tx).txs = self.txs ++ [tx] :=
  rfl

@[simp] theorem BootloaderL2Block.firstTxIndex_pushTx :
    (self.pushTx keccak256 tx).firstTxIndex = self.firstTxIndex :=
  rfl

/-- A pushed transaction is placed after the others, and opens the block if it was empty. -/
theorem BootloaderL2Block.placed_pushTx :
    (self.pushTx keccak256 tx).placed = self.placed ++ [⟨tx, self.header, self.txs.isEmpty⟩] := by
  have opens : (self.txs.length == 0) = self.txs.isEmpty := by cases self.txs <;> rfl
  simp [BootloaderL2Block.placed, List.zipIdx_append, opens]

end Pushing

/-! ### What one transaction and one block write -/

section Writes

variable {C : Type} (encodeCall : C → List UInt8)

/-- `apply_tx_to_memory` only appends to the memory. -/
theorem applyTxToMemory_append (memory : BootloaderMemory) (tx : BootloaderTx C)
    (block : BootloaderL2Block C) (txIndex txOffset size : Nat) (mode : TxExecutionMode)
    (first : Bool) (subversion : MultiVmSubversion) :
    applyTxToMemory encodeCall memory tx block txIndex txOffset size mode first subversion =
      (applyTxToMemory encodeCall [] tx block txIndex txOffset size mode first subversion).map
        fun (writes, words) => (memory ++ writes, words) := by
  unfold applyTxToMemory
  cases getMemoryForCompressedBytecodes encodeCall tx.compressedBytecodes <;>
    simp [applyL2BlockInner]

/-- A block's writes read only its header. -/
theorem applyTxToMemory_header (memory : BootloaderMemory) (tx : BootloaderTx C)
    (block : BootloaderL2Block C) (txIndex txOffset size : Nat) (mode : TxExecutionMode)
    (first : Bool) (subversion : MultiVmSubversion) :
    applyTxToMemory encodeCall memory tx block.header txIndex txOffset size mode first subversion =
      applyTxToMemory encodeCall memory tx block txIndex txOffset size mode first subversion :=
  rfl

theorem applyL2Block_append (memory : BootloaderMemory) (block : BootloaderL2Block C)
    (txsIndex : Nat) (subversion : MultiVmSubversion) :
    applyL2Block memory block txsIndex subversion =
      memory ++ applyL2Block [] block txsIndex subversion := by
  simp [applyL2Block, applyL2BlockInner]

/-- A transaction's writes carry its refund in the refund slot, and nowhere else. -/
theorem applyTxToMemory_refund (tx : BootloaderTx C) (refund : Nat) (block : BootloaderL2Block C)
    (txIndex txOffset size : Nat) (mode : TxExecutionMode) (first : Bool)
    (subversion : MultiVmSubversion) :
    applyTxToMemory encodeCall [] { tx with refund } block txIndex txOffset size mode first subversion =
      (applyTxToMemory encodeCall [] tx block txIndex txOffset size mode first subversion).map
        fun (writes, words) => (overwriteRefund writes refund, words) := by
  unfold applyTxToMemory
  cases getMemoryForCompressedBytecodes encodeCall tx.compressedBytecodes <;>
    simp [applyL2BlockInner, overwriteRefund, BootloaderTx.encodedLen]

theorem overwriteRefund_applyTxToMemory {tx : BootloaderTx C} {block : BootloaderL2Block C}
    {txIndex txOffset size : Nat} {mode : TxExecutionMode} {first : Bool}
    {subversion : MultiVmSubversion} {writes : BootloaderMemory} {words : Nat}
    (applied : applyTxToMemory encodeCall [] tx block txIndex txOffset size mode first subversion =
      some (writes, words)) :
    overwriteRefund writes tx.refund = writes := by
  have same := applyTxToMemory_refund encodeCall tx tx.refund block txIndex txOffset size mode first
    subversion
  simp only [applied, Option.map_some, Option.some.injEq, Prod.mk.injEq] at same
  exact same.1.symm

end Writes

/-! ### The transactions of a state, placed -/

namespace BootloaderState

variable {C P : Type} (encodeCall : C → List UInt8) (self : BootloaderState C P)

/-- The transactions of all blocks, in order. -/
def allTxs : List (BootloaderTx C) := self.l2Blocks.flatMap (·.txs)

/-- The refunds of all transactions, in order. -/
def refunds : List Nat := self.allTxs.map (·.refund)

/-- The state with all refunds set to zero. -/
def eraseRefunds : BootloaderState C P :=
  { self with l2Blocks := self.l2Blocks.map BootloaderL2Block.eraseRefunds }

/-- The transactions of all blocks, placed. -/
def placed : List (PlacedTx C) := self.l2Blocks.flatMap (·.placed)

/-- One step of the loop of `bootloader_memory`, with the writes of each transaction kept apart:
the writes so far, the offset of the next transaction, the words of compressed bytecodes so far and
the index of the next transaction. -/
def placeStep : List BootloaderMemory × Nat × Nat × Nat → PlacedTx C →
    Option (List BootloaderMemory × Nat × Nat × Nat) :=
  fun (writes, offset, compressedBytecodesOffset, txIndex) placedTx => do
    let (memory, compressedBytecodesSize) ← applyTxToMemory encodeCall [] placedTx.tx placedTx.block
      txIndex offset compressedBytecodesOffset self.executionMode placedTx.first self.subversion
    pure (writes ++ [memory], offset + placedTx.tx.encodedLen,
      compressedBytecodesOffset + compressedBytecodesSize, txIndex + 1)

/-- The writes of each transaction, as `bootloader_memory` makes them, with the final offset,
words of compressed bytecodes and transaction index. -/
def txWrites : Option (List BootloaderMemory × Nat × Nat × Nat) :=
  self.placed.foldlM (self.placeStep encodeCall) ([], 0, 0, 0)

@[simp] theorem executionMode_eraseRefunds : self.eraseRefunds.executionMode = self.executionMode :=
  rfl

@[simp] theorem subversion_eraseRefunds : self.eraseRefunds.subversion = self.subversion := rfl

@[simp] theorem initialMemory_eraseRefunds : self.eraseRefunds.initialMemory = self.initialMemory :=
  rfl

@[simp] theorem freeTxOffset_eraseRefunds : self.eraseRefunds.freeTxOffset = self.freeTxOffset := rfl

@[simp] theorem compressedBytecodesEncoding_eraseRefunds :
    self.eraseRefunds.compressedBytecodesEncoding = self.compressedBytecodesEncoding := rfl

@[simp] theorem l2Blocks_eraseRefunds :
    self.eraseRefunds.l2Blocks = self.l2Blocks.map BootloaderL2Block.eraseRefunds := rfl

theorem map_tx_placed : self.placed.map (·.tx) = self.allTxs := by
  simp only [placed, allTxs, List.map_flatMap]
  congr 1
  funext block
  simp [BootloaderL2Block.placed, Function.comp_def]

theorem length_allTxs_eraseRefunds : self.eraseRefunds.allTxs.length = self.allTxs.length := by
  simp [allTxs, List.length_flatMap, Function.comp_def]

/-- Erasing the refunds erases them in the placed transactions. -/
theorem placed_eraseRefunds :
    self.eraseRefunds.placed = self.placed.map fun placedTx =>
      { placedTx with tx := placedTx.tx.eraseRefund } := by
  simp only [placed, l2Blocks_eraseRefunds, List.flatMap_map, List.map_flatMap]
  congr 1
  funext block
  simp [BootloaderL2Block.placed, List.zipIdx_map, Function.comp_def]

theorem placeStep_eq_some {writes : List BootloaderMemory} {offset compressedBytecodesOffset txIndex : Nat}
    {placedTx : PlacedTx C} {result : List BootloaderMemory × Nat × Nat × Nat} :
    self.placeStep encodeCall (writes, offset, compressedBytecodesOffset, txIndex) placedTx =
        some result ↔
      ∃ memory size, applyTxToMemory encodeCall [] placedTx.tx placedTx.block txIndex offset
          compressedBytecodesOffset self.executionMode placedTx.first self.subversion =
            some (memory, size) ∧
        result = (writes ++ [memory], offset + placedTx.tx.encodedLen,
          compressedBytecodesOffset + size, txIndex + 1) := by
  cases applied : applyTxToMemory encodeCall [] placedTx.tx placedTx.block txIndex offset
      compressedBytecodesOffset self.executionMode placedTx.first self.subversion with
  | none => simp [placeStep, applied]
  | some written =>
    obtain ⟨memory, size⟩ := written
    simp [placeStep, applied, eq_comm]

/-- With the refunds erased, each transaction writes the same with a zero refund. -/
theorem txWrites_eraseRefunds :
    self.eraseRefunds.txWrites encodeCall = (self.txWrites encodeCall).map
      fun (writes, rest) => (writes.map (overwriteRefund · 0), rest) := by
  rw [txWrites, placed_eraseRefunds, List.foldlM_map]
  refine List.foldlM_map_acc (fun (writes, rest) => (writes.map (overwriteRefund · 0), rest))
    (fun ⟨writes, offset, compressedBytecodesOffset, txIndex⟩ placedTx _ => ?_)
    ([], 0, 0, 0)
  have erased := applyTxToMemory_refund encodeCall placedTx.tx 0 placedTx.block txIndex offset
    compressedBytecodesOffset self.executionMode placedTx.first self.subversion
  cases applied : applyTxToMemory encodeCall [] placedTx.tx placedTx.block txIndex offset
      compressedBytecodesOffset self.executionMode placedTx.first self.subversion with
  | none =>
    rw [applied] at erased
    simp [placeStep, BootloaderTx.eraseRefund, erased, applied]
  | some written =>
    rw [applied] at erased
    simp [placeStep, BootloaderTx.eraseRefund, erased, applied, BootloaderTx.encodedLen]

/-- Each transaction's writes carry its refund. By induction over the placed transactions, from
any writes before them. -/
theorem overwriteRefund_foldlM_placeStep (placedTxs : List (PlacedTx C)) :
    ∀ {start : List BootloaderMemory × Nat × Nat × Nat} {result : List BootloaderMemory × Nat × Nat × Nat},
      placedTxs.foldlM (self.placeStep encodeCall) start = some result →
      ∃ added, result.1 = start.1 ++ added ∧
        List.zipWith overwriteRefund added (placedTxs.map (·.tx.refund)) = added := by
  induction placedTxs with
  | nil =>
    intro start result ran
    cases ran
    exact ⟨[], by simp, rfl⟩
  | cons placedTx placedTxs ih =>
    intro ⟨writes, offset, compressedBytecodesOffset, txIndex⟩ result ran
    rw [List.foldlM_cons] at ran
    obtain ⟨next, stepped, rest⟩ := Option.bind_eq_some_iff.mp ran
    obtain ⟨memory, size, applied, rfl⟩ := (self.placeStep_eq_some encodeCall).mp stepped
    obtain ⟨added, grown, carried⟩ := ih rest
    refine ⟨memory :: added, by simpa using grown, ?_⟩
    simp [carried, overwriteRefund_applyTxToMemory encodeCall applied]

theorem overwriteRefund_txWrites {writes : List BootloaderMemory} {rest : Nat × Nat × Nat}
    (written : self.txWrites encodeCall = some (writes, rest)) :
    List.zipWith overwriteRefund writes self.refunds = writes := by
  obtain ⟨added, rfl, carried⟩ := self.overwriteRefund_foldlM_placeStep encodeCall _ written
  rw [refunds, ← map_tx_placed, List.map_map]
  simpa [Function.comp_def] using carried

/-! ### The loop of `bootloader_memory` -/

/-- One step of the loop of `bootloader_memory`, over a placed transaction. -/
def memoryStep : BootloaderMemory × Nat × Nat × Nat → PlacedTx C →
    Option (BootloaderMemory × Nat × Nat × Nat) :=
  fun (memory, offset, compressedBytecodesOffset, txIndex) placedTx => do
    let (memory, compressedBytecodesSize) ← applyTxToMemory encodeCall memory placedTx.tx
      placedTx.block txIndex offset compressedBytecodesOffset self.executionMode placedTx.first
      self.subversion
    pure (memory, offset + placedTx.tx.encodedLen, compressedBytecodesOffset + compressedBytecodesSize,
      txIndex + 1)

/-- The loop over one block's transactions is the loop over them placed. -/
theorem applyL2BlockTxsToMemory_eq (block : BootloaderL2Block C)
    (start : BootloaderMemory × Nat × Nat × Nat) :
    self.applyL2BlockTxsToMemory encodeCall block start =
      block.placed.foldlM (self.memoryStep encodeCall) start := by
  rw [applyL2BlockTxsToMemory, BootloaderL2Block.placed, List.foldlM_map]
  rfl

/-- The memory of the loop once the writes of each transaction are laid after `memory`. -/
def withWrites (memory : BootloaderMemory) :
    List BootloaderMemory × Nat × Nat × Nat → BootloaderMemory × Nat × Nat × Nat :=
  fun (writes, rest) => (memory ++ writes.flatten, rest)

/-- A step that writes after a memory is the step that writes alone, after it. -/
theorem memoryStep_withWrites (memory : BootloaderMemory)
    (acc : List BootloaderMemory × Nat × Nat × Nat) (placedTx : PlacedTx C) :
    self.memoryStep encodeCall (withWrites memory acc) placedTx =
      (self.placeStep encodeCall acc placedTx).map (withWrites memory) := by
  obtain ⟨writes, offset, compressedBytecodesOffset, txIndex⟩ := acc
  simp only [withWrites, memoryStep, placeStep]
  rw [applyTxToMemory_append]
  cases applyTxToMemory encodeCall [] placedTx.tx placedTx.block txIndex offset
    compressedBytecodesOffset self.executionMode placedTx.first self.subversion <;> simp [withWrites]

theorem foldlM_memoryStep_withWrites (memory : BootloaderMemory) (placedTxs : List (PlacedTx C))
    (acc : List BootloaderMemory × Nat × Nat × Nat) :
    placedTxs.foldlM (self.memoryStep encodeCall) (withWrites memory acc) =
      (placedTxs.foldlM (self.placeStep encodeCall) acc).map (withWrites memory) :=
  List.foldlM_map_acc (withWrites memory)
    (fun acc placedTx _ => self.memoryStep_withWrites encodeCall memory acc placedTx) acc

/-- One step of the loop of `bootloader_memory` over the blocks. -/
def blockStep (acc : BootloaderMemory × Nat × Nat × Nat) (l2Block : BootloaderL2Block C) :
    Option (BootloaderMemory × Nat × Nat × Nat) := do
  let (memory, offset, compressedBytecodesOffset, txIndex) ←
    self.applyL2BlockTxsToMemory encodeCall l2Block acc
  let memory :=
    if l2Block.txs.isEmpty then applyL2Block memory l2Block txIndex self.subversion else memory
  pure (memory, offset, compressedBytecodesOffset, txIndex)

theorem applyL2BlocksToMemory_eq_foldlM :
    self.applyL2BlocksToMemory encodeCall =
      self.l2Blocks.foldlM (self.blockStep encodeCall) (self.initialMemory, 0, 0, 0) :=
  rfl

/-- A block's step: its transactions, then its own writes if it has none. -/
theorem blockStep_eq (acc : BootloaderMemory × Nat × Nat × Nat) (l2Block : BootloaderL2Block C) :
    self.blockStep encodeCall acc l2Block =
      (l2Block.placed.foldlM (self.memoryStep encodeCall) acc).map
        fun (memory, offset, compressedBytecodesOffset, txIndex) =>
          (if l2Block.txs.isEmpty then applyL2Block memory l2Block txIndex self.subversion
            else memory, offset, compressedBytecodesOffset, txIndex) := by
  rw [blockStep, applyL2BlockTxsToMemory_eq]
  cases l2Block.placed.foldlM (self.memoryStep encodeCall) acc with
  | none => rfl
  | some result =>
    obtain ⟨memory, offset, compressedBytecodesOffset, txIndex⟩ := result
    rfl

theorem blockStep_of_txs_ne_nil {l2Block : BootloaderL2Block C} (full : l2Block.txs ≠ [])
    (acc : BootloaderMemory × Nat × Nat × Nat) :
    self.blockStep encodeCall acc l2Block = l2Block.placed.foldlM (self.memoryStep encodeCall) acc := by
  rw [blockStep_eq]
  cases l2Block.placed.foldlM (self.memoryStep encodeCall) acc with
  | none => rfl
  | some result => simp [full]

/-- The loop over the blocks of a state whose blocks all have transactions but the last: the
writes of each transaction after the initial memory, and the last block's own writes if it has no
transaction. -/
theorem applyL2BlocksToMemory_eq {lastBlock : BootloaderL2Block C}
    (last : self.lastL2Block = some lastBlock)
    (nonempty : ∀ block ∈ self.l2Blocks.dropLast, block.txs ≠ []) :
    self.applyL2BlocksToMemory encodeCall = (self.txWrites encodeCall).map
      fun (writes, offset, compressedBytecodesOffset, txIndex) =>
        (self.initialMemory ++ writes.flatten ++
            (if lastBlock.txs.isEmpty then applyL2Block [] lastBlock txIndex self.subversion else []),
          offset, compressedBytecodesOffset, txIndex) := by
  -- the blocks are those with transactions, then the last one
  have split : self.l2Blocks = self.l2Blocks.dropLast ++ [lastBlock] :=
    (List.dropLast_append_getLast? lastBlock last).symm
  have start : (self.initialMemory, 0, 0, 0) = withWrites self.initialMemory ([], 0, 0, 0) := by
    simp [withWrites]
  -- over the blocks with transactions, the loop of each block is its placed loop
  have front : self.l2Blocks.dropLast.foldlM (self.blockStep encodeCall) (self.initialMemory, 0, 0, 0) =
      ((self.l2Blocks.dropLast.flatMap (·.placed)).foldlM (self.placeStep encodeCall)
        ([], 0, 0, 0)).map (withWrites self.initialMemory) := by
    rw [List.foldlM_congr_of_mem
        (fun acc l2Block member => self.blockStep_of_txs_ne_nil encodeCall (nonempty l2Block member) acc),
      ← List.foldlM_flatMap, start, foldlM_memoryStep_withWrites]
  rw [applyL2BlocksToMemory_eq_foldlM, txWrites, placed, split, List.foldlM_append,
    List.flatMap_append, List.foldlM_append, front]
  cases (self.l2Blocks.dropLast.flatMap (·.placed)).foldlM (self.placeStep encodeCall)
      ([], 0, 0, 0) with
  | none => rfl
  | some acc =>
    simp only [Option.map_some, Option.bind_eq_bind, Option.bind_some, List.flatMap_cons,
      List.flatMap_nil, List.append_nil, List.foldlM_cons, List.foldlM_nil, bind_pure]
    rw [blockStep_eq, foldlM_memoryStep_withWrites]
    cases lastBlock.placed.foldlM (self.placeStep encodeCall) acc with
    | none => rfl
    | some result =>
      obtain ⟨writes, offset, compressedBytecodesOffset, txIndex⟩ := result
      cases lastBlock.txs.isEmpty with
      | false => simp [withWrites]
      | true =>
        simp only [withWrites, Option.map_some, if_true]
        rw [applyL2Block_append]

/-! ### The layout a run keeps -/

theorem freeTxIndex_of_lastL2Block {lastBlock : BootloaderL2Block C}
    (last : self.lastL2Block = some lastBlock) :
    self.freeTxIndex = some (lastBlock.firstTxIndex + lastBlock.txs.length) := by
  simp [freeTxIndex, last]

theorem l2Blocks_eq_dropLast {lastBlock : BootloaderL2Block C}
    (last : self.lastL2Block = some lastBlock) :
    self.l2Blocks = self.l2Blocks.dropLast ++ [lastBlock] :=
  (List.dropLast_append_getLast? lastBlock last).symm

theorem allTxs_eq_dropLast {lastBlock : BootloaderL2Block C}
    (last : self.lastL2Block = some lastBlock) :
    self.allTxs = self.l2Blocks.dropLast.flatMap (·.txs) ++ lastBlock.txs := by
  conv_lhs => rw [allTxs, self.l2Blocks_eq_dropLast last]
  simp

theorem placed_eq_dropLast {lastBlock : BootloaderL2Block C}
    (last : self.lastL2Block = some lastBlock) :
    self.placed = self.l2Blocks.dropLast.flatMap (·.placed) ++ lastBlock.placed := by
  conv_lhs => rw [placed, self.l2Blocks_eq_dropLast last]
  simp

theorem placeStep_congr {state : BootloaderState C P}
    (mode : state.executionMode = self.executionMode) (subversion : state.subversion = self.subversion) :
    state.placeStep encodeCall = self.placeStep encodeCall := by
  unfold placeStep
  rw [mode, subversion]

/-- Transactions placed after those of a state are written after them. -/
theorem txWrites_of_placed_eq_append {state : BootloaderState C P} {extra : List (PlacedTx C)}
    (mode : state.executionMode = self.executionMode) (subversion : state.subversion = self.subversion)
    (placed_eq : state.placed = self.placed ++ extra) :
    state.txWrites encodeCall =
      (self.txWrites encodeCall).bind fun acc => extra.foldlM (self.placeStep encodeCall) acc := by
  rw [txWrites, placed_eq, self.placeStep_congr encodeCall mode subversion, List.foldlM_append]
  rfl

/-- What the state of a run keeps: there is a last block, the blocks before it have transactions,
the free index counts the transactions, and with refunds erased the writes of all transactions are
the slices `push_tx` returned, with the state's offset and words of compressed bytecodes after
them. -/
structure Layout (state : BootloaderState C P) (journal : List BootloaderMemory) : Prop where
  nonempty : state.l2Blocks ≠ []
  chained : ∀ block ∈ state.l2Blocks.dropLast, block.txs ≠ []
  freeTxIndex_eq : state.freeTxIndex = some state.allTxs.length
  txWrites_eq : state.eraseRefunds.txWrites encodeCall =
    some (journal.map (overwriteRefund · 0), state.freeTxOffset, state.compressedBytecodesEncoding,
      state.allTxs.length)

theorem layout_new (executionMode : TxExecutionMode) (initialMemory : BootloaderMemory)
    (firstL2Block : L2BlockEnv) (subversion : MultiVmSubversion) :
    Layout encodeCall (new executionMode initialMemory firstL2Block subversion : BootloaderState C P)
      [] :=
  ⟨by simp [new], by simp [new], rfl, rfl⟩

theorem freeTxIndex_eraseRefunds : self.eraseRefunds.freeTxIndex = self.freeTxIndex := by
  simp [freeTxIndex, lastL2Block, eraseRefunds, List.getLast?_map, Function.comp_def]

theorem eraseRefunds_eraseRefunds : self.eraseRefunds.eraseRefunds = self.eraseRefunds := by
  simp [eraseRefunds, BootloaderL2Block.eraseRefunds, BootloaderTx.eraseRefund, Function.comp_def]

/-- The layout does not see the refunds. -/
theorem layout_eraseRefunds_iff {journal : List BootloaderMemory} :
    Layout encodeCall self.eraseRefunds journal ↔ Layout encodeCall self journal := by
  have chained_iff : (∀ block ∈ self.eraseRefunds.l2Blocks.dropLast, block.txs ≠ []) ↔
      ∀ block ∈ self.l2Blocks.dropLast, block.txs ≠ [] := by
    simp [← List.map_dropLast]
  constructor
  · intro layout
    refine ⟨by simpa using layout.nonempty, chained_iff.mp layout.chained, ?_, ?_⟩
    · rw [← freeTxIndex_eraseRefunds, layout.freeTxIndex_eq, length_allTxs_eraseRefunds]
    · rw [← eraseRefunds_eraseRefunds, layout.txWrites_eq, length_allTxs_eraseRefunds]
      rfl
  · intro layout
    refine ⟨by simpa using layout.nonempty, chained_iff.mpr layout.chained, ?_, ?_⟩
    · rw [freeTxIndex_eraseRefunds, layout.freeTxIndex_eq, length_allTxs_eraseRefunds]
    · rw [eraseRefunds_eraseRefunds, layout.txWrites_eq, length_allTxs_eraseRefunds]
      rfl

/-- Two states that differ only in their refunds have the same layout. -/
theorem Layout.of_eraseRefunds_eq {journal : List BootloaderMemory} {state : BootloaderState C P}
    (layout : Layout encodeCall self journal) (same : state.eraseRefunds = self.eraseRefunds) :
    Layout encodeCall state journal := by
  rw [← layout_eraseRefunds_iff, same, layout_eraseRefunds_iff]
  exact layout

/-- A state with the blocks, counters and setup of another has its layout. -/
theorem Layout.congr {journal : List BootloaderMemory} {state : BootloaderState C P}
    (layout : Layout encodeCall self journal) (blocks : state.l2Blocks = self.l2Blocks)
    (offset : state.freeTxOffset = self.freeTxOffset)
    (words : state.compressedBytecodesEncoding = self.compressedBytecodesEncoding)
    (mode : state.executionMode = self.executionMode) (subversion : state.subversion = self.subversion) :
    Layout encodeCall state journal := by
  have allTxs_eq : state.allTxs = self.allTxs := by simp [allTxs, blocks]
  have placed_eq : state.eraseRefunds.placed = self.eraseRefunds.placed ++ [] := by
    rw [placed_eraseRefunds, placed_eraseRefunds, List.append_nil, placed, placed, blocks]
  have writes_eq : state.eraseRefunds.txWrites encodeCall = self.eraseRefunds.txWrites encodeCall := by
    rw [txWrites_of_placed_eq_append encodeCall self.eraseRefunds (by exact mode)
      (by exact subversion) placed_eq]
    simp
  refine ⟨blocks ▸ layout.nonempty, blocks ▸ layout.chained, ?_, ?_⟩
  · simpa [freeTxIndex, lastL2Block, blocks, allTxs_eq] using layout.freeTxIndex_eq
  · rw [writes_eq, layout.txWrites_eq, offset, words, allTxs_eq]

/-- Overwriting refund slots erased first is overwriting them. -/
theorem zipWith_overwriteRefund_map (writes : List BootloaderMemory) (refunds : List Nat) :
    List.zipWith overwriteRefund (writes.map (overwriteRefund · 0)) refunds =
      List.zipWith overwriteRefund writes refunds := by
  simp [List.zipWith_map_left]

/-- With the layout, the writes of the transactions are the journal with each refund slot set to
the transaction's refund. -/
theorem Layout.txWrites_eq_zipWith {journal : List BootloaderMemory}
    (layout : Layout encodeCall self journal) :
    self.txWrites encodeCall = some (List.zipWith overwriteRefund journal self.refunds,
      self.freeTxOffset, self.compressedBytecodesEncoding, self.allTxs.length) := by
  have erased := layout.txWrites_eq
  rw [txWrites_eraseRefunds] at erased
  obtain ⟨⟨writes, rest⟩, written, same⟩ := Option.map_eq_some_iff.mp erased
  simp only [Prod.mk.injEq] at same
  obtain ⟨sameWrites, rfl⟩ := same
  -- the writes carry the refunds, and agree with the journal once they are erased
  have carried := self.overwriteRefund_txWrites encodeCall written
  rw [written, ← carried, ← zipWith_overwriteRefund_map writes, sameWrites,
    zipWith_overwriteRefund_map]

/-- With the layout, `bootloader_memory` rebuilds the initial memory, then the journal with each
refund slot set to the final refund, then the last block if it has no transaction. -/
theorem Layout.applyL2BlocksToMemory_eq {journal : List BootloaderMemory}
    (layout : Layout encodeCall self journal) {lastBlock : BootloaderL2Block C}
    (last : self.lastL2Block = some lastBlock) :
    self.applyL2BlocksToMemory encodeCall = some (self.initialMemory ++
        (List.zipWith overwriteRefund journal self.refunds).flatten ++
        (if lastBlock.txs.isEmpty then applyL2Block [] lastBlock self.allTxs.length self.subversion
          else []),
      self.freeTxOffset, self.compressedBytecodesEncoding, self.allTxs.length) := by
  rw [self.applyL2BlocksToMemory_eq encodeCall last layout.chained, layout.txWrites_eq_zipWith]
  rfl

section Calls

variable (keccak256 : List UInt8 → H256)

/-- The state after `push_tx` wrote `tx` into `lastBlock`, with `size` words of compressed
bytecodes. -/
def withPushedTx (lastBlock : BootloaderL2Block C) (tx : BootloaderTx C) (size : Nat) :
    BootloaderState C P :=
  { self with
    compressedBytecodesEncoding := self.compressedBytecodesEncoding + size
    freeTxOffset := self.freeTxOffset + tx.encodedLen
    l2Blocks := self.l2Blocks.dropLast ++ [lastBlock.pushTx keccak256 tx] }

theorem pushTx_eq_some {hash : H256} {encoded : List U256} {predefinedOverhead predefinedRefund : Nat}
    {compressedBytecodes : List C} {trustedErgsLimit : U256} {memory : BootloaderMemory}
    {state : BootloaderState C P}
    (pushed : self.pushTx keccak256 encodeCall hash encoded predefinedOverhead predefinedRefund
      compressedBytecodes trustedErgsLimit = some (memory, state)) :
    ∃ lastBlock size, self.lastL2Block = some lastBlock ∧
      applyTxToMemory encodeCall [] (BootloaderTx.new hash encoded predefinedRefund
          predefinedOverhead trustedErgsLimit compressedBytecodes self.freeTxOffset) lastBlock
        (lastBlock.firstTxIndex + lastBlock.txs.length) self.freeTxOffset
        self.compressedBytecodesEncoding self.executionMode lastBlock.txs.isEmpty self.subversion =
          some (memory, size) ∧
      state = self.withPushedTx keccak256 lastBlock (BootloaderTx.new hash encoded predefinedRefund
        predefinedOverhead trustedErgsLimit compressedBytecodes self.freeTxOffset) size := by
  cases last : self.lastL2Block with
  | none => simp [pushTx, last] at pushed
  | some lastBlock =>
    rw [pushTx, last, freeTxIndex_of_lastL2Block self last] at pushed
    cases applied : applyTxToMemory encodeCall [] (BootloaderTx.new hash encoded predefinedRefund
        predefinedOverhead trustedErgsLimit compressedBytecodes self.freeTxOffset) lastBlock
        (lastBlock.firstTxIndex + lastBlock.txs.length) self.freeTxOffset
        self.compressedBytecodesEncoding self.executionMode lastBlock.txs.isEmpty self.subversion with
    | none => simp [applied] at pushed
    | some written =>
      obtain ⟨written, size⟩ := written
      have blocksLast : self.l2Blocks.getLast? = some lastBlock := last
      simp only [applied, Option.bind_eq_bind, Option.bind_some, pushTxToLastL2Block, lastL2Block,
        blocksLast, Option.pure_def, Option.some.injEq, Prod.mk.injEq] at pushed
      obtain ⟨rfl, rfl⟩ := pushed
      exact ⟨lastBlock, size, rfl, applied, rfl⟩

/-- A transaction written at the free offset and index into the last block keeps the layout, with
its slice added to the journal. -/
theorem Layout.push {journal : List BootloaderMemory} (layout : Layout encodeCall self journal)
    {lastBlock : BootloaderL2Block C} (last : self.lastL2Block = some lastBlock)
    {tx : BootloaderTx C} {memory : BootloaderMemory} {size : Nat}
    (applied : applyTxToMemory encodeCall [] tx lastBlock
      (lastBlock.firstTxIndex + lastBlock.txs.length) self.freeTxOffset
      self.compressedBytecodesEncoding self.executionMode lastBlock.txs.isEmpty self.subversion =
        some (memory, size)) :
    Layout encodeCall (self.withPushedTx keccak256 lastBlock tx size) (journal ++ [memory]) := by
  have counted : lastBlock.firstTxIndex + lastBlock.txs.length = self.allTxs.length := by
    simpa [freeTxIndex_of_lastL2Block self last] using layout.freeTxIndex_eq
  have pushedLast : (self.withPushedTx keccak256 lastBlock tx size).lastL2Block =
      some (lastBlock.pushTx keccak256 tx) := by
    simp [withPushedTx, lastL2Block]
  have allTxs_eq : (self.withPushedTx keccak256 lastBlock tx size).allTxs = self.allTxs ++ [tx] := by
    rw [allTxs_eq_dropLast _ pushedLast, allTxs_eq_dropLast self last]
    simp [withPushedTx]
  have placed_eq : (self.withPushedTx keccak256 lastBlock tx size).eraseRefunds.placed =
      self.eraseRefunds.placed ++ [⟨tx.eraseRefund, lastBlock.header, lastBlock.txs.isEmpty⟩] := by
    rw [placed_eraseRefunds, placed_eraseRefunds, placed_eq_dropLast _ pushedLast,
      placed_eq_dropLast self last]
    simp [withPushedTx, BootloaderL2Block.placed_pushTx]
  refine ⟨by simp [withPushedTx], ?_, ?_, ?_⟩
  · intro block member
    exact layout.chained block (by simpa [withPushedTx] using member)
  · rw [freeTxIndex_of_lastL2Block _ pushedLast, allTxs_eq]
    simp only [BootloaderL2Block.firstTxIndex_pushTx, BootloaderL2Block.txs_pushTx,
      List.length_append, List.length_singleton, Option.some.injEq]
    omega
  · -- the new transaction's step, refund erased, is its slice with a zero refund
    have erased := applyTxToMemory_refund encodeCall tx 0 lastBlock.header
      (lastBlock.firstTxIndex + lastBlock.txs.length) self.freeTxOffset
      self.compressedBytecodesEncoding self.executionMode lastBlock.txs.isEmpty self.subversion
    rw [applyTxToMemory_header encodeCall [] tx, applied, counted] at erased
    rw [txWrites_of_placed_eq_append encodeCall self.eraseRefunds (by rfl) (by rfl) placed_eq,
      layout.txWrites_eq, allTxs_eq]
    simp [placeStep, BootloaderTx.eraseRefund, erased, withPushedTx, BootloaderTx.encodedLen]

theorem Layout.pushTx {journal : List BootloaderMemory} (layout : Layout encodeCall self journal)
    {hash : H256} {encoded : List U256} {predefinedOverhead predefinedRefund : Nat}
    {compressedBytecodes : List C} {trustedErgsLimit : U256} {memory : BootloaderMemory}
    {state : BootloaderState C P}
    (pushed : self.pushTx keccak256 encodeCall hash encoded predefinedOverhead predefinedRefund
      compressedBytecodes trustedErgsLimit = some (memory, state)) :
    Layout encodeCall state (journal ++ [memory]) := by
  obtain ⟨lastBlock, size, last, applied, rfl⟩ := self.pushTx_eq_some encodeCall keccak256 pushed
  exact Layout.push encodeCall self keccak256 layout last applied

theorem startNewL2Block_eq_some {l2Block : L2BlockEnv} {state : BootloaderState C P}
    (started : self.startNewL2Block keccak256 l2Block = some state) :
    ∃ lastBlock, self.lastL2Block = some lastBlock ∧ lastBlock.txs ≠ [] ∧
      assertNextBlock (lastBlock.l2Block keccak256) l2Block = true ∧
      state = { self with l2Blocks := self.l2Blocks ++
        [BootloaderL2Block.new l2Block (lastBlock.firstTxIndex + lastBlock.txs.length)] } := by
  cases last : self.lastL2Block with
  | none => simp [startNewL2Block, last] at started
  | some lastBlock =>
    refine ⟨lastBlock, rfl, ?_⟩
    simp only [startNewL2Block, last, pushL2Block, freeTxIndex_of_lastL2Block self last,
      Option.bind_eq_bind, Option.bind_some, Option.pure_def] at started
    split at started
    · cases started
    · split at started
      · cases started
      · rename_i full valid
        simp only [Option.some.injEq] at started
        exact ⟨by simpa using full, by simpa using valid, started.symm⟩

/-- A new block after a block with transactions keeps the layout: it starts at the free index and
places nothing. -/
theorem Layout.startNewL2Block {journal : List BootloaderMemory}
    (layout : Layout encodeCall self journal) {l2Block : L2BlockEnv} {state : BootloaderState C P}
    (started : self.startNewL2Block keccak256 l2Block = some state) :
    Layout encodeCall state journal := by
  obtain ⟨lastBlock, last, full, _, rfl⟩ := self.startNewL2Block_eq_some keccak256 started
  have allTxs_eq : ({ self with l2Blocks := self.l2Blocks ++
      [BootloaderL2Block.new l2Block (lastBlock.firstTxIndex + lastBlock.txs.length)] } :
        BootloaderState C P).allTxs = self.allTxs := by
    simp [allTxs, BootloaderL2Block.new]
  have placed_eq : ({ self with l2Blocks := self.l2Blocks ++
      [BootloaderL2Block.new l2Block (lastBlock.firstTxIndex + lastBlock.txs.length)] } :
        BootloaderState C P).eraseRefunds.placed = self.eraseRefunds.placed ++ [] := by
    simp [placed, eraseRefunds, BootloaderL2Block.new, BootloaderL2Block.placed]
  refine ⟨by simp, ?_, ?_, ?_⟩
  · -- the blocks before the new one are the old blocks, the last of which has transactions
    intro block member
    rw [List.dropLast_concat] at member
    rw [self.l2Blocks_eq_dropLast last] at member
    rcases List.mem_append.mp member with early | final
    · exact layout.chained block early
    · rw [List.mem_singleton.mp final]
      exact full
  · rw [allTxs_eq, ← layout.freeTxIndex_eq, freeTxIndex_of_lastL2Block self last]
    simp [freeTxIndex, lastL2Block, BootloaderL2Block.new]
  · rw [txWrites_of_placed_eq_append encodeCall self.eraseRefunds (by rfl) (by rfl) placed_eq,
      layout.txWrites_eq, allTxs_eq]
    rfl

end Calls

end BootloaderState

end ZksyncEra.Multivm
