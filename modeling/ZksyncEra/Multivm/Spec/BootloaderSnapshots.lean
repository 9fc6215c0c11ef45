import ZksyncEra.Multivm.Spec.BootloaderLayout

/-!
Snapshots of the bootloader state, and the memory the state reports for proving.

A snapshot records the counters, the number of blocks and the last block's transactions and rolling
hash; applying it truncates the blocks and the last block's transactions and restores the rest.
Applying it therefore undoes every call made since it was taken, as long as the snapshots taken in
between were applied before it (`Script`): transactions are only appended to the last block, blocks
only appended, and the counters and the rolling hash are restored from the snapshot. Refunds are
the exception: they are changed in place and no snapshot restores them, so the relation a run keeps
(`Restores`) holds up to refunds.

Over a run from a new state, the memory `bootloader_memory` rebuilds is the initial memory, then
the slices `push_tx` returned for the transactions that survived, each with its final refund, then
the block that `set_fictive_l2_block` inserted.
-/

namespace ZksyncEra.Multivm

open MerkleTree

namespace BootloaderL2Block

variable {C : Type} (self : BootloaderL2Block C)

/-- `apply_snapshot` of a block: the transactions truncated, the rolling hash restored. -/
theorem applySnapshot_eq (snapshot : L2BlockSnapshot) :
    self.applySnapshot snapshot =
      if snapshot.txsLen ≤ self.txs.length then
        some { self with
          txsRollingHash := snapshot.txsRollingHash
          txs := self.txs.take snapshot.txsLen }
      else none := by
  unfold applySnapshot
  dsimp only
  rcases Nat.lt_trichotomy snapshot.txsLen self.txs.length with fewer | same | more
  · rw [Nat.compare_eq_gt.mpr fewer]
    simp [fewer.le]
  · rw [Nat.compare_eq_eq.mpr same.symm]
    simp [same]
  · rw [Nat.compare_eq_lt.mpr more]
    simp [Nat.not_le.mpr more]

/-- A block's own snapshot restores it. -/
theorem applySnapshot_makeSnapshot : self.applySnapshot self.makeSnapshot = some self := by
  simp [applySnapshot_eq, makeSnapshot]

/-- A transaction pushed after a snapshot is truncated away by it. -/
theorem applySnapshot_pushTx (keccak256 : List UInt8 → H256) (tx : BootloaderTx C)
    {snapshot : L2BlockSnapshot} {restored : BootloaderL2Block C}
    (applied : self.applySnapshot snapshot = some restored) :
    (self.pushTx keccak256 tx).applySnapshot snapshot = some restored := by
  rw [applySnapshot_eq] at applied ⊢
  split at applied
  next fits =>
    have fitsPushed : snapshot.txsLen ≤ self.txs.length + 1 := Nat.le_succ_of_le fits
    simp only [txs_pushTx, List.length_append, List.length_singleton, fitsPushed, ↓reduceIte,
      List.take_append_of_le_length fits]
    exact applied
  next => cases applied

theorem applySnapshot_eraseRefunds (snapshot : L2BlockSnapshot) :
    self.eraseRefunds.applySnapshot snapshot = (self.applySnapshot snapshot).map eraseRefunds := by
  rw [applySnapshot_eq, applySnapshot_eq]
  split <;> simp_all [eraseRefunds, List.map_take]

/-- A restored block keeps the first of the transactions. -/
theorem txs_of_applySnapshot {snapshot : L2BlockSnapshot} {restored : BootloaderL2Block C}
    (applied : self.applySnapshot snapshot = some restored) : restored.txs <+: self.txs := by
  rw [applySnapshot_eq] at applied
  split at applied
  next =>
    cases applied
    exact List.take_prefix _ _
  next => cases applied

end BootloaderL2Block

/-- Setting a refund changes nothing but the refund. By induction over the blocks, last first. -/
theorem setRefundFromLast_eraseRefunds {C : Type} (txIndex refund : Nat) :
    ∀ {l2Blocks updated : List (BootloaderL2Block C)},
      setRefundFromLast txIndex refund l2Blocks = some updated →
      updated.map BootloaderL2Block.eraseRefunds = l2Blocks.map BootloaderL2Block.eraseRefunds
  | [], _, set => by simp [setRefundFromLast] at set
  | block :: rest, updated, set => by
    unfold setRefundFromLast at set
    split at set
    · split at set
      · -- the refund is set in this block, which erasing does not see
        cases set
        have erased : (block.txs.modify (txIndex - block.firstTxIndex)
            fun tx => { tx with refund }).map BootloaderTx.eraseRefund =
              block.txs.map BootloaderTx.eraseRefund :=
          List.map_modify_of_forall (f := fun (tx : BootloaderTx C) => { tx with refund })
            (fun _ => rfl) _ _
        simp only [List.map_cons, BootloaderL2Block.eraseRefunds, erased]
      · cases set
    · obtain ⟨updatedRest, setRest, rfl⟩ := Option.map_eq_some_iff.mp set
      rw [List.map_cons, List.map_cons, setRefundFromLast_eraseRefunds txIndex refund setRest]


/-- A transaction is its erasure and its refund. -/
theorem BootloaderTx.eq_of_eraseRefund_eq {C : Type} {tx other : BootloaderTx C}
    (erased : tx.eraseRefund = other.eraseRefund) (refund : tx.refund = other.refund) : tx = other := by
  cases tx
  cases other
  simp only [BootloaderTx.eraseRefund, BootloaderTx.mk.injEq] at erased refund ⊢
  obtain ⟨hash, encoded, compressedBytecodes, _, gasOverhead, trustedGasLimit, offset⟩ := erased
  exact ⟨hash, encoded, compressedBytecodes, refund, gasOverhead, trustedGasLimit, offset⟩

/-- A block is its erasure and the refunds of its transactions. -/
theorem BootloaderL2Block.eq_of_eraseRefunds_eq {C : Type} {block other : BootloaderL2Block C}
    (erased : block.eraseRefunds = other.eraseRefunds)
    (refunds : block.txs.map (·.refund) = other.txs.map (·.refund)) : block = other := by
  have txs : block.txs = other.txs :=
    List.eq_of_map_eq_of_map_eq (fun _ _ => BootloaderTx.eq_of_eraseRefund_eq)
      (congrArg BootloaderL2Block.txs erased) refunds
  cases block
  cases other
  simp only [BootloaderL2Block.eraseRefunds, BootloaderL2Block.mk.injEq] at erased txs ⊢
  obtain ⟨number, timestamp, txsRollingHash, prevBlockHash, firstTxIndex, maxVirtual, _⟩ := erased
  exact ⟨number, timestamp, txsRollingHash, prevBlockHash, firstTxIndex, maxVirtual, txs⟩

/-- Blocks are their erasures and the refunds of all their transactions. By induction over the
blocks, cutting the refunds at the length of each block's transactions. -/
theorem BootloaderL2Block.eq_of_map_eraseRefunds_eq {C : Type} :
    ∀ {l2Blocks others : List (BootloaderL2Block C)},
      l2Blocks.map BootloaderL2Block.eraseRefunds = others.map BootloaderL2Block.eraseRefunds →
      (l2Blocks.flatMap (·.txs)).map (·.refund) = (others.flatMap (·.txs)).map (·.refund) →
      l2Blocks = others
  | [], [], _, _ => rfl
  | [], _ :: _, erased, _ => by simp at erased
  | _ :: _, [], erased, _ => by simp at erased
  | block :: l2Blocks, other :: others, erased, refunds => by
    simp only [List.map_cons, List.cons.injEq] at erased
    have sameLength : (block.txs.map (·.refund)).length = (other.txs.map (·.refund)).length := by
      simpa using congrArg (·.txs.length) erased.1
    simp only [List.flatMap_cons, List.map_append] at refunds
    obtain ⟨first, rest⟩ := List.append_inj refunds sameLength
    rw [eq_of_eraseRefunds_eq erased.1 first, eq_of_map_eraseRefunds_eq erased.2 rest]


namespace BootloaderState

variable {C P : Type}

/-! ### Restoring a state -/

/-- The blocks `apply_snapshot` keeps: the first ones, the last of them truncated. -/
def restoreBlocks (l2Blocks : List (BootloaderL2Block C)) (snapshot : BootloaderStateSnapshot) :
    Option (List (BootloaderL2Block C)) :=
  if snapshot.l2BlocksLen ≤ l2Blocks.length then
    (l2Blocks.take snapshot.l2BlocksLen).getLast?.bind fun lastBlock =>
      (lastBlock.applySnapshot snapshot.lastL2Block).map fun lastBlock =>
        (l2Blocks.take snapshot.l2BlocksLen).dropLast ++ [lastBlock]
  else none

section RestoreBlocks

variable {l2Blocks : List (BootloaderL2Block C)} {snapshot : BootloaderStateSnapshot}

/-- The blocks of a snapshot of themselves are restored as they are. -/
theorem restoreBlocks_self {lastBlock : BootloaderL2Block C}
    (last : l2Blocks.getLast? = some lastBlock) (count : snapshot.l2BlocksLen = l2Blocks.length)
    (lastSnapshot : snapshot.lastL2Block = lastBlock.makeSnapshot) :
    restoreBlocks l2Blocks snapshot = some l2Blocks := by
  simp [restoreBlocks, count, last, lastSnapshot, BootloaderL2Block.applySnapshot_makeSnapshot,
    List.dropLast_append_getLast? lastBlock last]

/-- Blocks appended after those a snapshot covers are cut off. -/
theorem restoreBlocks_append (more : List (BootloaderL2Block C))
    (fits : snapshot.l2BlocksLen ≤ l2Blocks.length) :
    restoreBlocks (l2Blocks ++ more) snapshot = restoreBlocks l2Blocks snapshot := by
  have fitsMore : snapshot.l2BlocksLen ≤ (l2Blocks ++ more).length := by simp; omega
  simp only [restoreBlocks, fits, fitsMore, ↓reduceIte, List.take_append_of_le_length fits]

theorem fits_of_restoreBlocks {restored : List (BootloaderL2Block C)}
    (applied : restoreBlocks l2Blocks snapshot = some restored) :
    snapshot.l2BlocksLen ≤ l2Blocks.length := by
  by_contra exceeds
  simp [restoreBlocks, exceeds] at applied

/-- A transaction pushed into the last block after a snapshot is cut off by it. -/
theorem restoreBlocks_pushTx (keccak256 : List UInt8 → H256) (tx : BootloaderTx C)
    {lastBlock : BootloaderL2Block C} (last : l2Blocks.getLast? = some lastBlock)
    {restored : List (BootloaderL2Block C)} (applied : restoreBlocks l2Blocks snapshot = some restored) :
    restoreBlocks (l2Blocks.dropLast ++ [lastBlock.pushTx keccak256 tx]) snapshot = some restored := by
  have split : l2Blocks = l2Blocks.dropLast ++ [lastBlock] :=
    (List.dropLast_append_getLast? lastBlock last).symm
  have fits := fits_of_restoreBlocks applied
  rcases Nat.lt_or_ge snapshot.l2BlocksLen l2Blocks.length with before | atLast
  · -- the snapshot ends before the last block
    have fitsFront : snapshot.l2BlocksLen ≤ l2Blocks.dropLast.length := by
      rw [List.length_dropLast]
      omega
    rw [restoreBlocks_append _ fitsFront, ← restoreBlocks_append [lastBlock] fitsFront, ← split]
    exact applied
  · -- the snapshot covers the last block, which it truncates
    have count : snapshot.l2BlocksLen = l2Blocks.length := by omega
    rw [split] at applied count
    have full : snapshot.l2BlocksLen = (l2Blocks.dropLast ++ [lastBlock.pushTx keccak256 tx]).length := by
      simpa using count
    simp only [restoreBlocks, count, le_refl, ↓reduceIte, List.take_length, List.getLast?_concat,
      Option.bind_some, List.dropLast_concat] at applied
    simp only [restoreBlocks, full, le_refl, ↓reduceIte, List.take_length, List.getLast?_concat,
      Option.bind_some, List.dropLast_concat]
    obtain ⟨block, restoredLast, rfl⟩ := Option.map_eq_some_iff.mp applied
    rw [BootloaderL2Block.applySnapshot_pushTx _ keccak256 tx restoredLast]
    rfl

theorem restoreBlocks_eraseRefunds :
    restoreBlocks (l2Blocks.map BootloaderL2Block.eraseRefunds) snapshot =
      (restoreBlocks l2Blocks snapshot).map (·.map BootloaderL2Block.eraseRefunds) := by
  unfold restoreBlocks
  by_cases fits : snapshot.l2BlocksLen ≤ l2Blocks.length
  · simp only [List.length_map, fits, ↓reduceIte, ← List.map_take, List.getLast?_map]
    cases (l2Blocks.take snapshot.l2BlocksLen).getLast? with
    | none => rfl
    | some lastBlock =>
      simp [BootloaderL2Block.applySnapshot_eraseRefunds, Function.comp_def, List.map_dropLast,
        List.map_take]
  · simp [fits]

/-- The restored blocks hold the first of the transactions. -/
theorem flatMap_txs_of_restoreBlocks {restored : List (BootloaderL2Block C)}
    (applied : restoreBlocks l2Blocks snapshot = some restored) :
    restored.flatMap (·.txs) <+: l2Blocks.flatMap (·.txs) := by
  have fits := fits_of_restoreBlocks applied
  simp only [restoreBlocks, fits, ↓reduceIte] at applied
  obtain ⟨lastBlock, last, truncated⟩ := Option.bind_eq_some_iff.mp applied
  obtain ⟨block, restoredLast, rfl⟩ := Option.map_eq_some_iff.mp truncated
  have kept : l2Blocks.take snapshot.l2BlocksLen =
      (l2Blocks.take snapshot.l2BlocksLen).dropLast ++ [lastBlock] :=
    (List.dropLast_append_getLast? lastBlock last).symm
  have truncated : ((l2Blocks.take snapshot.l2BlocksLen).dropLast ++ [block]).flatMap (·.txs) <+:
      ((l2Blocks.take snapshot.l2BlocksLen).dropLast ++ [lastBlock]).flatMap (·.txs) := by
    simpa using BootloaderL2Block.txs_of_applySnapshot lastBlock restoredLast
  rw [← kept] at truncated
  exact truncated.trans (List.IsPrefix.flatMap (List.take_prefix _ _) _)

end RestoreBlocks

variable (self : BootloaderState C P)

/-- `apply_snapshot`: the blocks restored, the counters set, and the pubdata information dropped
unless the snapshot had it. -/
theorem applySnapshot_eq (snapshot : BootloaderStateSnapshot) :
    self.applySnapshot snapshot =
      (restoreBlocks self.l2Blocks snapshot).bind fun l2Blocks =>
        (if !snapshot.isPubdataInformationProvided then some none
          else if self.pubdataInformation.isSome then some self.pubdataInformation else none).map
          fun pubdataInformation => { self with
            txToExecute := snapshot.txToExecute
            compressedBytecodesEncoding := snapshot.compressedBytecodesEncoding
            freeTxOffset := snapshot.freeTxOffset
            l2Blocks := l2Blocks
            pubdataInformation := pubdataInformation } := by
  unfold applySnapshot restoreBlocks
  dsimp only
  rcases Nat.lt_trichotomy snapshot.l2BlocksLen self.l2Blocks.length with fewer | same | more
  · rw [Nat.compare_eq_gt.mpr fewer]
    cases snapshot.isPubdataInformationProvided <;> cases self.pubdataInformation.isSome <;>
      simp [fewer.le, Option.bind_assoc, Option.bind_map]
  · rw [Nat.compare_eq_eq.mpr same.symm]
    cases snapshot.isPubdataInformationProvided <;> cases self.pubdataInformation.isSome <;>
      simp [same, Option.bind_assoc, Option.bind_map]
  · rw [Nat.compare_eq_lt.mpr more]
    simp [Nat.not_le.mpr more]

theorem getSnapshot_eq_some {snapshot : BootloaderStateSnapshot}
    (taken : self.getSnapshot = some snapshot) :
    ∃ lastBlock, self.lastL2Block = some lastBlock ∧
      snapshot = ⟨self.txToExecute, self.l2Blocks.length, lastBlock.makeSnapshot,
        self.compressedBytecodesEncoding, self.freeTxOffset, self.pubdataInformation.isSome⟩ := by
  cases last : self.lastL2Block with
  | none => simp [getSnapshot, last] at taken
  | some lastBlock =>
    simp only [getSnapshot, last, Option.bind_eq_bind, Option.bind_some, Option.pure_def,
      Option.some.injEq] at taken
    exact ⟨lastBlock, rfl, taken.symm⟩

/-- A state's own snapshot restores it. -/
theorem applySnapshot_getSnapshot {snapshot : BootloaderStateSnapshot}
    (taken : self.getSnapshot = some snapshot) : self.applySnapshot snapshot = some self := by
  obtain ⟨lastBlock, last, rfl⟩ := self.getSnapshot_eq_some taken
  rw [applySnapshot_eq, restoreBlocks_self last rfl rfl]
  -- the pubdata information is kept when the snapshot has it, and was none otherwise
  cases provided : self.pubdataInformation with
  | none =>
    simp only [Option.isSome_none, Bool.not_false, ↓reduceIte, Option.map_some, Option.bind_some]
    rw [← provided]
  | some info =>
    simp only [Option.isSome_some, Bool.not_true, Bool.false_eq_true, ↓reduceIte, Option.map_some,
      Option.bind_some]
    rw [← provided]

theorem applySnapshot_eraseRefunds (snapshot : BootloaderStateSnapshot) :
    self.eraseRefunds.applySnapshot snapshot = (self.applySnapshot snapshot).map eraseRefunds := by
  rw [applySnapshot_eq, applySnapshot_eq]
  simp only [eraseRefunds, restoreBlocks_eraseRefunds]
  cases restoreBlocks self.l2Blocks snapshot with
  | none => rfl
  | some l2Blocks =>
    simp only [Option.map_some, Option.bind_some, Option.map_map]
    rfl

/-- A state is its erasure and its refunds. -/
theorem eq_of_eraseRefunds_eq {state : BootloaderState C P}
    (erased : state.eraseRefunds = self.eraseRefunds) (refunds : state.refunds = self.refunds) :
    state = self := by
  have l2Blocks : state.l2Blocks = self.l2Blocks :=
    BootloaderL2Block.eq_of_map_eraseRefunds_eq (congrArg BootloaderState.l2Blocks erased) refunds
  cases state
  cases self
  simp only [eraseRefunds, BootloaderState.mk.injEq] at erased l2Blocks ⊢
  obtain ⟨txToExecute, _, words, initialMemory, mode, offset, pubdata, subversion⟩ := erased
  exact ⟨txToExecute, l2Blocks, words, initialMemory, mode, offset, pubdata, subversion⟩

/-- The restored transactions are the first of the transactions. -/
theorem allTxs_of_applySnapshot {snapshot : BootloaderStateSnapshot} {restored : BootloaderState C P}
    (applied : self.applySnapshot snapshot = some restored) : restored.allTxs <+: self.allTxs := by
  rw [applySnapshot_eq] at applied
  obtain ⟨l2Blocks, restoredBlocks, rest⟩ := Option.bind_eq_some_iff.mp applied
  obtain ⟨pubdataInformation, _, rfl⟩ := Option.map_eq_some_iff.mp rest
  exact flatMap_txs_of_restoreBlocks restoredBlocks

/-- A snapshot leaves the initial memory, the execution mode and the subversion as they are. -/
theorem setup_of_applySnapshot {snapshot : BootloaderStateSnapshot} {restored : BootloaderState C P}
    (applied : self.applySnapshot snapshot = some restored) :
    restored.initialMemory = self.initialMemory ∧ restored.executionMode = self.executionMode ∧
      restored.subversion = self.subversion := by
  rw [applySnapshot_eq] at applied
  obtain ⟨l2Blocks, restoredBlocks, rest⟩ := Option.bind_eq_some_iff.mp applied
  obtain ⟨pubdataInformation, _, rfl⟩ := Option.map_eq_some_iff.mp rest
  exact ⟨rfl, rfl, rfl⟩

/-- Pushing a transaction into the last block changes nothing a snapshot taken before restores. -/
theorem applySnapshot_withPushedTx (keccak256 : List UInt8 → H256) {lastBlock : BootloaderL2Block C}
    (last : self.lastL2Block = some lastBlock) (tx : BootloaderTx C) (size : Nat)
    {snapshot : BootloaderStateSnapshot} {restored : BootloaderState C P}
    (applied : self.applySnapshot snapshot = some restored) :
    (self.withPushedTx keccak256 lastBlock tx size).applySnapshot snapshot = some restored := by
  rw [applySnapshot_eq] at applied ⊢
  obtain ⟨l2Blocks, restoredBlocks, rest⟩ := Option.bind_eq_some_iff.mp applied
  have pushed : (self.withPushedTx keccak256 lastBlock tx size).l2Blocks =
      self.l2Blocks.dropLast ++ [lastBlock.pushTx keccak256 tx] := rfl
  rw [pushed, restoreBlocks_pushTx keccak256 tx last restoredBlocks, Option.bind_some]
  exact rest

/-- Blocks appended after a snapshot are cut off by it. -/
theorem applySnapshot_append_l2Blocks (more : List (BootloaderL2Block C))
    {snapshot : BootloaderStateSnapshot} {restored : BootloaderState C P}
    (applied : self.applySnapshot snapshot = some restored) :
    ({ self with l2Blocks := self.l2Blocks ++ more } : BootloaderState C P).applySnapshot snapshot =
      some restored := by
  rw [applySnapshot_eq] at applied ⊢
  obtain ⟨l2Blocks, restoredBlocks, rest⟩ := Option.bind_eq_some_iff.mp applied
  rw [restoreBlocks_append more (fits_of_restoreBlocks restoredBlocks), restoredBlocks,
    Option.bind_some]
  exact rest

/-- The next transaction to execute is restored from the snapshot. -/
theorem applySnapshot_txToExecute (txToExecute : Nat) (snapshot : BootloaderStateSnapshot) :
    ({ self with txToExecute } : BootloaderState C P).applySnapshot snapshot =
      self.applySnapshot snapshot :=
  rfl

/-- Pubdata information provided after a snapshot is dropped by it. -/
theorem applySnapshot_pubdataInformation (info : P) (absent : self.pubdataInformation = none)
    {snapshot : BootloaderStateSnapshot} {restored : BootloaderState C P}
    (applied : self.applySnapshot snapshot = some restored) :
    ({ self with pubdataInformation := some info } : BootloaderState C P).applySnapshot snapshot =
      some restored := by
  rw [applySnapshot_eq] at applied ⊢
  -- a snapshot taken with the information would not apply to a state without it
  cases provided : snapshot.isPubdataInformationProvided
  · simpa [provided] using applied
  · simp [provided, absent] at applied

/-! ### The relation a run keeps -/

/-- Applying the snapshot of `before` to `after` gives `before` back, up to refunds. -/
def Restores (before after : BootloaderState C P) : Prop :=
  ∃ snapshot, before.getSnapshot = some snapshot ∧
    (after.applySnapshot snapshot).map eraseRefunds = some before.eraseRefunds

theorem restores_self {snapshot : BootloaderStateSnapshot} (taken : self.getSnapshot = some snapshot) :
    Restores self self :=
  ⟨snapshot, taken, by rw [applySnapshot_getSnapshot self taken, Option.map_some]⟩

/-- What restores a state's snapshot as `after` does, restores it. -/
theorem Restores.of_applySnapshot {before after state : BootloaderState C P}
    (restores : Restores before after)
    (keeps : ∀ {snapshot restored}, after.applySnapshot snapshot = some restored →
      state.applySnapshot snapshot = some restored) :
    Restores before state := by
  obtain ⟨snapshot, taken, applied⟩ := restores
  obtain ⟨restored, afterApplied, erased⟩ := Option.map_eq_some_iff.mp applied
  exact ⟨snapshot, taken, by rw [keeps afterApplied, Option.map_some, erased]⟩

/-- Refunds aside, two states restore the same. -/
theorem Restores.of_eraseRefunds_eq {before after state : BootloaderState C P}
    (restores : Restores before after) (same : state.eraseRefunds = after.eraseRefunds) :
    Restores before state := by
  obtain ⟨snapshot, taken, applied⟩ := restores
  refine ⟨snapshot, taken, ?_⟩
  rw [← applySnapshot_eraseRefunds, same, applySnapshot_eraseRefunds]
  exact applied

/-- A state that restores the snapshot of another has its initial memory, execution mode and
subversion. -/
theorem Restores.setup_eq {before after : BootloaderState C P} (restores : Restores before after) :
    after.initialMemory = before.initialMemory ∧ after.executionMode = before.executionMode ∧
      after.subversion = before.subversion := by
  obtain ⟨snapshot, _, applied⟩ := restores
  obtain ⟨restored, afterApplied, erased⟩ := Option.map_eq_some_iff.mp applied
  obtain ⟨initialMemory, mode, subversion⟩ := after.setup_of_applySnapshot afterApplied
  -- erasing the refunds keeps these fields, so the restored state has those of `before`
  refine ⟨?_, ?_, ?_⟩
  · rw [← initialMemory]
    have kept := congrArg BootloaderState.initialMemory erased
    exact kept
  · rw [← mode]
    have kept := congrArg BootloaderState.executionMode erased
    exact kept
  · rw [← subversion]
    have kept := congrArg BootloaderState.subversion erased
    exact kept

/-! ### The calls between snapshots -/

theorem eraseRefunds_setRefundForCurrentTx {refund : Nat} {state : BootloaderState C P}
    (set : self.setRefundForCurrentTx refund = some state) :
    state.eraseRefunds = self.eraseRefunds := by
  simp only [setRefundForCurrentTx, Option.bind_eq_bind, Option.pure_def] at set
  obtain ⟨txIndex, _, set⟩ := Option.bind_eq_some_iff.mp set
  obtain ⟨l2Blocks, setBlocks, set⟩ := Option.bind_eq_some_iff.mp set
  obtain rfl := Option.some.inj set
  have erased := setRefundFromLast_eraseRefunds txIndex refund setBlocks
  simp only [eraseRefunds, List.map_reverse, erased, List.reverse_reverse]

theorem moveTxToExecutePointer_eq_some {state : BootloaderState C P} {txIndex : Nat}
    (moved : self.moveTxToExecutePointer = some (state, txIndex)) :
    state = { self with txToExecute := self.txToExecute + 1 } := by
  simp only [moveTxToExecutePointer, Option.bind_eq_bind, Option.pure_def] at moved
  obtain ⟨freeTxIndex, _, moved⟩ := Option.bind_eq_some_iff.mp moved
  split at moved
  · simp only [Option.some.injEq, Prod.mk.injEq] at moved
    exact moved.1.symm
  · cases moved

theorem setPubdataInput_eq_some {info : P} {state : BootloaderState C P}
    (set : self.setPubdataInput info = some state) :
    self.pubdataInformation = none ∧ state = { self with pubdataInformation := some info } := by
  unfold setPubdataInput at set
  split at set
  · cases set
  · rename_i absent
    cases set
    exact ⟨by simpa using absent, rfl⟩

end BootloaderState

/-! ### Runs of calls with snapshots -/

/-- The calls a batch makes on the bootloader state between snapshots. -/
inductive BootloaderCall (C P : Type) where
  | pushTx (hash : H256) (encoded : List U256) (predefinedOverhead predefinedRefund : Nat)
      (compressedBytecodes : List C) (trustedErgsLimit : U256)
  | startNewL2Block (l2Block : L2BlockEnv)
  | moveTxToExecutePointer
  | setRefundForCurrentTx (refund : Nat)
  | setPubdataInput (info : P)

/-- Calls, with snapshots taken and applied as the VM's stack of snapshots does: a snapshot is
applied after the calls it covers, and the snapshots taken among them are applied before it. A
snapshot dropped without being applied changes nothing and is left out. -/
inductive Script (C P : Type) where
  | done
  | call (call : BootloaderCall C P) (rest : Script C P)
  | rolledBack (body rest : Script C P)

namespace BootloaderState

variable {C P : Type} (keccak256 : List UInt8 → H256) (encodeCall : C → List UInt8)

/-- A call on a state, with the journal of the slices `push_tx` returned. -/
def call (self : BootloaderState C P) (journal : List BootloaderMemory) :
    BootloaderCall C P → Option (BootloaderState C P × List BootloaderMemory)
  | .pushTx hash encoded predefinedOverhead predefinedRefund compressedBytecodes trustedErgsLimit =>
    (self.pushTx keccak256 encodeCall hash encoded predefinedOverhead predefinedRefund
      compressedBytecodes trustedErgsLimit).map fun (memory, state) => (state, journal ++ [memory])
  | .startNewL2Block l2Block => (self.startNewL2Block keccak256 l2Block).map (·, journal)
  | .moveTxToExecutePointer => self.moveTxToExecutePointer.map fun (state, _) => (state, journal)
  | .setRefundForCurrentTx refund => (self.setRefundForCurrentTx refund).map (·, journal)
  | .setPubdataInput info => (self.setPubdataInput info).map (·, journal)

end BootloaderState

namespace Script

variable {C P : Type} (keccak256 : List UInt8 → H256) (encodeCall : C → List UInt8)

/-- A run: each call in turn, and for a snapshot, the calls it covers and then the snapshot
applied, which also drops the slices of the transactions pushed since. -/
def run : Script C P → BootloaderState C P × List BootloaderMemory →
    Option (BootloaderState C P × List BootloaderMemory)
  | done, acc => some acc
  | call c rest, (state, journal) =>
    (state.call keccak256 encodeCall journal c).bind fun acc => rest.run acc
  | rolledBack body rest, (state, journal) => do
    let snapshot ← state.getSnapshot
    let (after, _) ← body.run (state, journal)
    let state ← after.applySnapshot snapshot
    rest.run (state, journal)

end Script

/-! ### What a run keeps -/

namespace BootloaderState

variable {C P : Type} (keccak256 : List UInt8 → H256) (encodeCall : C → List UInt8)

/-- Every call keeps what a snapshot taken before it restores, refunds aside. -/
theorem Restores.call {before state after : BootloaderState C P} {journal journal' : List BootloaderMemory}
    {c : BootloaderCall C P} (restores : Restores before state)
    (called : state.call keccak256 encodeCall journal c = some (after, journal')) :
    Restores before after := by
  cases c with
  | pushTx hash encoded predefinedOverhead predefinedRefund compressedBytecodes trustedErgsLimit =>
    obtain ⟨⟨memory, pushedState⟩, pushed, same⟩ := Option.map_eq_some_iff.mp called
    cases same
    obtain ⟨lastBlock, size, last, _, rfl⟩ := state.pushTx_eq_some encodeCall keccak256 pushed
    exact restores.of_applySnapshot (state.applySnapshot_withPushedTx keccak256 last _ size)
  | startNewL2Block l2Block =>
    obtain ⟨startedState, started, same⟩ := Option.map_eq_some_iff.mp called
    cases same
    obtain ⟨lastBlock, _, _, _, rfl⟩ := state.startNewL2Block_eq_some keccak256 started
    exact restores.of_applySnapshot (state.applySnapshot_append_l2Blocks _)
  | moveTxToExecutePointer =>
    obtain ⟨⟨movedState, txIndex⟩, moved, same⟩ := Option.map_eq_some_iff.mp called
    cases same
    rw [state.moveTxToExecutePointer_eq_some moved]
    exact restores.of_applySnapshot fun applied => by rw [applySnapshot_txToExecute]; exact applied
  | setRefundForCurrentTx refund =>
    obtain ⟨setState, set, same⟩ := Option.map_eq_some_iff.mp called
    cases same
    exact restores.of_eraseRefunds_eq (state.eraseRefunds_setRefundForCurrentTx set)
  | setPubdataInput info =>
    obtain ⟨setState, set, same⟩ := Option.map_eq_some_iff.mp called
    cases same
    obtain ⟨absent, rfl⟩ := state.setPubdataInput_eq_some set
    exact restores.of_applySnapshot (state.applySnapshot_pubdataInformation info absent)

/-- Every call keeps the layout, with the slice of a pushed transaction added to the journal. -/
theorem Layout.call {state after : BootloaderState C P} {journal journal' : List BootloaderMemory}
    {c : BootloaderCall C P} (layout : Layout encodeCall state journal)
    (called : state.call keccak256 encodeCall journal c = some (after, journal')) :
    Layout encodeCall after journal' := by
  cases c with
  | pushTx hash encoded predefinedOverhead predefinedRefund compressedBytecodes trustedErgsLimit =>
    obtain ⟨⟨memory, pushedState⟩, pushed, same⟩ := Option.map_eq_some_iff.mp called
    cases same
    exact Layout.pushTx encodeCall state keccak256 layout pushed
  | startNewL2Block l2Block =>
    obtain ⟨startedState, started, same⟩ := Option.map_eq_some_iff.mp called
    cases same
    exact Layout.startNewL2Block encodeCall state keccak256 layout started
  | moveTxToExecutePointer =>
    obtain ⟨⟨movedState, txIndex⟩, moved, same⟩ := Option.map_eq_some_iff.mp called
    cases same
    rw [state.moveTxToExecutePointer_eq_some moved]
    exact Layout.congr encodeCall state layout rfl rfl rfl rfl rfl
  | setRefundForCurrentTx refund =>
    obtain ⟨setState, set, same⟩ := Option.map_eq_some_iff.mp called
    cases same
    exact Layout.of_eraseRefunds_eq encodeCall state layout
      (state.eraseRefunds_setRefundForCurrentTx set)
  | setPubdataInput info =>
    obtain ⟨setState, set, same⟩ := Option.map_eq_some_iff.mp called
    cases same
    obtain ⟨_, rfl⟩ := state.setPubdataInput_eq_some set
    exact Layout.congr encodeCall state layout rfl rfl rfl rfl rfl

/-- `set_fictive_l2_block` ends the blocks with one without transactions, keeps the layout, and
returns the memory of that block at the free index. -/
theorem Layout.setFictiveL2Block {state final : BootloaderState C P}
    {journal : List BootloaderMemory} {fictive : BootloaderMemory}
    (layout : Layout encodeCall state journal)
    (set : state.setFictiveL2Block keccak256 = some (final, fictive)) :
    Layout encodeCall final journal ∧ final.initialMemory = state.initialMemory ∧
      final.subversion = state.subversion ∧
      ∃ lastBlock, final.lastL2Block = some lastBlock ∧ lastBlock.txs = [] ∧
        fictive = applyL2Block [] lastBlock final.allTxs.length final.subversion := by
  unfold BootloaderState.setFictiveL2Block BootloaderState.insertFictiveL2Block at set
  cases last : state.lastL2Block with
  | none => simp [last, layout.freeTxIndex_eq] at set
  | some lastBlock =>
    simp only [last, layout.freeTxIndex_eq, Option.bind_eq_bind, Option.bind_some] at set
    cases empty : lastBlock.txs.isEmpty
    · -- the last block has transactions: a new block is started after it
      simp only [empty, Bool.not_false, ↓reduceIte] at set
      obtain ⟨⟨started, fictiveBlock⟩, inserted, set⟩ := Option.bind_eq_some_iff.mp set
      obtain ⟨startedState, start, lastStarted⟩ := Option.bind_eq_some_iff.mp inserted
      have layoutStarted := Layout.startNewL2Block encodeCall state keccak256 layout start
      obtain ⟨_, last', _, _, rfl⟩ := state.startNewL2Block_eq_some keccak256 start
      rw [last] at last'
      cases last'
      simp only [lastL2Block, List.getLast?_concat, Option.bind_some, Option.pure_def,
        Option.some.injEq, Prod.mk.injEq] at lastStarted set
      obtain ⟨rfl, rfl⟩ := lastStarted
      obtain ⟨rfl, rfl⟩ := set
      refine ⟨layoutStarted, rfl, rfl, BootloaderL2Block.new
        ⟨lastBlock.number + 1, lastBlock.timestamp + 1, lastBlock.getHash keccak256, 1⟩
        (lastBlock.firstTxIndex + lastBlock.txs.length), by simp [lastL2Block], rfl, ?_⟩
      simp [allTxs, BootloaderL2Block.new]
    · -- the last block is empty and becomes the fictive one
      simp only [empty, Bool.not_true, Bool.false_eq_true, ↓reduceIte, Option.pure_def,
        Option.bind_some, last, Option.some.injEq, Prod.mk.injEq] at set
      obtain ⟨rfl, rfl⟩ := set
      exact ⟨layout, rfl, rfl, lastBlock, last, List.isEmpty_iff.mp empty, rfl⟩

/-- After the calls a snapshot covers, applying it gives the state it was taken of, refunds
aside. -/
theorem eraseRefunds_of_restores {state after restored : BootloaderState C P}
    {snapshot : BootloaderStateSnapshot} (taken : state.getSnapshot = some snapshot)
    (restores : Restores state after) (applied : after.applySnapshot snapshot = some restored) :
    restored.eraseRefunds = state.eraseRefunds := by
  obtain ⟨snapshot', taken', erased⟩ := restores
  rw [taken, Option.some.injEq] at taken'
  rw [← taken', applied, Option.map_some, Option.some.injEq] at erased
  exact erased

end BootloaderState

namespace Script

open BootloaderState

variable {C P : Type} (keccak256 : List UInt8 → H256) (encodeCall : C → List UInt8)

/-- A run keeps what every snapshot taken before it restores. By induction over the script; a
snapshot applied inside the run gives back the state it was taken of, refunds aside. -/
theorem restores_run : ∀ (script : Script C P) {state after : BootloaderState C P}
    {journal journal' : List BootloaderMemory},
    script.run keccak256 encodeCall (state, journal) = some (after, journal') →
      ∀ {before}, Restores before state → Restores before after
  | done, _, _, _, _, ran, _, restores => by
    cases ran
    exact restores
  | call c rest, state, after, journal, journal', ran, before, restores => by
    obtain ⟨⟨called, calledJournal⟩, stepped, ran⟩ := Option.bind_eq_some_iff.mp ran
    exact restores_run rest ran (Restores.call keccak256 encodeCall restores stepped)
  | rolledBack body rest, state, after, journal, journal', ran, before, restores => by
    simp only [run, Option.bind_eq_bind] at ran
    obtain ⟨snapshot, taken, ran⟩ := Option.bind_eq_some_iff.mp ran
    obtain ⟨⟨covered, coveredJournal⟩, ranBody, ran⟩ := Option.bind_eq_some_iff.mp ran
    obtain ⟨restored, applied, ran⟩ := Option.bind_eq_some_iff.mp ran
    have erased := eraseRefunds_of_restores taken
      (restores_run body ranBody (restores_self state taken)) applied
    exact restores_run rest ran (restores.of_eraseRefunds_eq erased)

/-- A run keeps the layout, with the journal of the slices of the transactions that survive. -/
theorem layout_run : ∀ (script : Script C P) {state after : BootloaderState C P}
    {journal journal' : List BootloaderMemory},
    script.run keccak256 encodeCall (state, journal) = some (after, journal') →
      Layout encodeCall state journal → Layout encodeCall after journal'
  | done, _, _, _, _, ran, layout => by
    cases ran
    exact layout
  | call c rest, state, after, journal, journal', ran, layout => by
    obtain ⟨⟨called, calledJournal⟩, stepped, ran⟩ := Option.bind_eq_some_iff.mp ran
    exact layout_run rest ran (Layout.call keccak256 encodeCall layout stepped)
  | rolledBack body rest, state, after, journal, journal', ran, layout => by
    simp only [run, Option.bind_eq_bind] at ran
    obtain ⟨snapshot, taken, ran⟩ := Option.bind_eq_some_iff.mp ran
    obtain ⟨⟨covered, coveredJournal⟩, ranBody, ran⟩ := Option.bind_eq_some_iff.mp ran
    obtain ⟨restored, applied, ran⟩ := Option.bind_eq_some_iff.mp ran
    have erased := eraseRefunds_of_restores taken
      (restores_run keccak256 encodeCall body ranBody (restores_self state taken)) applied
    exact layout_run rest ran (Layout.of_eraseRefunds_eq encodeCall state layout erased)

/-- A snapshot can be applied after the calls it covers. -/
theorem applySnapshot_of_run {state after : BootloaderState C P} {snapshot : BootloaderStateSnapshot}
    {body : Script C P} {journal journal' : List BootloaderMemory}
    (taken : state.getSnapshot = some snapshot)
    (ran : body.run keccak256 encodeCall (state, journal) = some (after, journal')) :
    ∃ restored, after.applySnapshot snapshot = some restored := by
  obtain ⟨snapshot', taken', erased⟩ :=
    restores_run keccak256 encodeCall body ran (restores_self state taken)
  rw [taken, Option.some.injEq] at taken'
  rw [← taken'] at erased
  obtain ⟨restored, applied, -⟩ := Option.map_eq_some_iff.mp erased
  exact ⟨restored, applied⟩

/-- A snapshot applied after the calls it covers gives back the state it was taken of, as long as
the refunds of the transactions pushed before it are as they were. -/
theorem restored_eq {state after restored : BootloaderState C P} {snapshot : BootloaderStateSnapshot}
    {body : Script C P} {journal journal' : List BootloaderMemory}
    (taken : state.getSnapshot = some snapshot)
    (ran : body.run keccak256 encodeCall (state, journal) = some (after, journal'))
    (applied : after.applySnapshot snapshot = some restored)
    (refunds : after.refunds.take state.refunds.length = state.refunds) :
    restored = state := by
  have erased := eraseRefunds_of_restores taken
    (restores_run keccak256 encodeCall body ran (restores_self state taken)) applied
  -- the restored refunds are the first of those after the calls, as many as before them
  have sameLength : restored.refunds.length = state.refunds.length := by
    simp only [BootloaderState.refunds, List.length_map]
    rw [← length_allTxs_eraseRefunds, erased, length_allTxs_eraseRefunds]
  have kept : restored.refunds <+: after.refunds :=
    (after.allTxs_of_applySnapshot applied).map _
  refine eq_of_eraseRefunds_eq state erased ?_
  rw [List.prefix_iff_eq_take.mp kept, sameLength, refunds]

/-- Over a run from a new state closed by `set_fictive_l2_block`, the memory of the blocks is the
initial memory, then the slices `push_tx` returned for the transactions that survived, with their
final refunds, then the slice of the fictive block. -/
theorem memory_eq_of_run {executionMode : TxExecutionMode} {initialMemory : BootloaderMemory}
    {firstL2Block : L2BlockEnv} {subversion : MultiVmSubversion} {script : Script C P}
    {state final : BootloaderState C P} {journal : List BootloaderMemory} {fictive : BootloaderMemory}
    (ran : script.run keccak256 encodeCall
      (BootloaderState.new executionMode initialMemory firstL2Block subversion, []) =
        some (state, journal))
    (set : state.setFictiveL2Block keccak256 = some (final, fictive)) :
    (final.applyL2BlocksToMemory encodeCall).map Prod.fst =
        some (initialMemory ++ (List.zipWith overwriteRefund journal final.refunds).flatten ++
          fictive) ∧
      final.subversion = subversion := by
  have layout := layout_run keccak256 encodeCall script ran (layout_new encodeCall _ _ _ _)
  have restores := restores_run keccak256 encodeCall script ran
    (restores_self (BootloaderState.new executionMode initialMemory firstL2Block subversion) rfl)
  obtain ⟨initialMemory_eq, _, subversion_eq⟩ := restores.setup_eq
  obtain ⟨layoutFinal, finalMemory, finalSubversion, lastBlock, last, empty, rfl⟩ :=
    Layout.setFictiveL2Block keccak256 encodeCall layout set
  rw [layoutFinal.applyL2BlocksToMemory_eq encodeCall final last]
  simp [empty, finalMemory, finalSubversion, initialMemory_eq, subversion_eq, BootloaderState.new]

/-- Snapshots taken and applied as a stack apply, and restore everything they saw, refunds changed
on the transactions they cover aside; and over a run from a new state closed by the fictive block,
`bootloader_memory` is the initial memory, then the slices `push_tx` returned for the surviving
transactions with each refund slot set to the final refund, then the fictive block's slice, then
the pubdata. -/
theorem snapshots_restore_and_memory_replays_pushes (keccak256 : List UInt8 → H256)
    (encodeCall : C → List UInt8) (pubdataBytes : P → MultiVmSubversion → List UInt8) :
    (∀ (state after : BootloaderState C P) (snapshot : BootloaderStateSnapshot)
        (body : Script C P) (journal journal' : List BootloaderMemory),
      state.getSnapshot = some snapshot →
      body.run keccak256 encodeCall (state, journal) = some (after, journal') →
      after.refunds.take state.refunds.length = state.refunds →
      after.applySnapshot snapshot = some state) ∧
    (∀ (executionMode : TxExecutionMode) (initialMemory : BootloaderMemory)
        (firstL2Block : L2BlockEnv) (subversion : MultiVmSubversion) (script : Script C P)
        (state final : BootloaderState C P) (journal : List BootloaderMemory)
        (fictive : BootloaderMemory),
      script.run keccak256 encodeCall
          (BootloaderState.new executionMode initialMemory firstL2Block subversion, []) =
        some (state, journal) →
      state.setFictiveL2Block keccak256 = some (final, fictive) →
      (final.applyL2BlocksToMemory encodeCall).map Prod.fst =
          some (initialMemory ++ (List.zipWith overwriteRefund journal final.refunds).flatten ++
            fictive) ∧
        final.bootloaderMemory encodeCall pubdataBytes =
          final.pubdataInformation.bind fun info =>
            applyPubdataToMemory
              (initialMemory ++ (List.zipWith overwriteRefund journal final.refunds).flatten ++
                fictive)
              (pubdataBytes info subversion) subversion) := by
  refine ⟨fun state after snapshot body journal journal' taken ran refunds => ?_, ?_⟩
  · obtain ⟨restored, applied⟩ := applySnapshot_of_run keccak256 encodeCall taken ran
    rw [applied, restored_eq keccak256 encodeCall taken ran applied refunds]
  intro executionMode initialMemory firstL2Block subversion script state final journal fictive ran set
  obtain ⟨memory, subversion_eq⟩ := memory_eq_of_run keccak256 encodeCall ran set
  refine ⟨memory, ?_⟩
  obtain ⟨⟨written, rest⟩, applied, same⟩ := Option.map_eq_some_iff.mp memory
  cases same
  simp [BootloaderState.bootloaderMemory, applied, subversion_eq]

/-- A new state whose first block is `⟨0, 0, 0, 1⟩`. -/
def sampleInitial : BootloaderState Unit Unit :=
  .new .verifyExecute [] ⟨0, 0, 0, 1⟩ .increasedBootloaderMemory

/-- A transaction pushed, executed and refunded. -/
def sampleCalls : Script Unit Unit :=
  .call (.pushTx 1 [5, 6] 0 7 [] 100) <| .call .moveTxToExecutePointer <|
    .call (.setRefundForCurrentTx 3) .done

/-- A new block with a second transaction. -/
def sampleBody : Script Unit Unit :=
  .call (.startNewL2Block ⟨1, 1, 0, 1⟩) <| .call (.pushTx 2 [8] 0 0 [] 100) .done

/-- The calls of `sampleCalls`, then a snapshot over `sampleBody`, then the pubdata. -/
def sampleScript : Script Unit Unit :=
  .call (.pushTx 1 [5, 6] 0 7 [] 100) <| .call .moveTxToExecutePointer <|
    .call (.setRefundForCurrentTx 3) <| .rolledBack sampleBody <| .call (.setPubdataInput ()) .done

/-- Where a sample script ends, with a hash and an encoding that are constant. -/
def sampleRun (script : Script Unit Unit) (start : BootloaderState Unit Unit × List BootloaderMemory) :
    BootloaderState Unit Unit × List BootloaderMemory :=
  (script.run (fun _ => 0) (fun _ => []) start).getD start

/-- The state and slice of the fictive block after a sample run. -/
def sampleFictive (state : BootloaderState Unit Unit) : BootloaderState Unit Unit × BootloaderMemory :=
  (state.setFictiveL2Block (fun _ => 0)).getD (state, [])

theorem snapshots_restore_and_memory_replays_pushes_sample :
    (∃ (state after : BootloaderState Unit Unit) (snapshot : BootloaderStateSnapshot)
        (journal journal' : List BootloaderMemory),
      sampleCalls.run (fun _ => 0) (fun _ => []) (sampleInitial, []) = some (state, journal) ∧
      state.getSnapshot = some snapshot ∧
      sampleBody.run (fun _ => 0) (fun _ => []) (state, journal) = some (after, journal') ∧
      after.refunds.take state.refunds.length = state.refunds ∧
      after.applySnapshot snapshot = some state) ∧
    (∃ (state final : BootloaderState Unit Unit) (journal : List BootloaderMemory)
        (fictive : BootloaderMemory),
      sampleScript.run (fun _ => 0) (fun _ => []) (sampleInitial, []) = some (state, journal) ∧
      state.setFictiveL2Block (fun _ => 0) = some (final, fictive) ∧
      (final.applyL2BlocksToMemory (fun _ => [])).map Prod.fst =
        some ([] ++ (List.zipWith overwriteRefund journal final.refunds).flatten ++ fictive)) := by
  have claim := snapshots_restore_and_memory_replays_pushes (fun _ => (0 : H256))
    (fun (_ : Unit) => ([] : List UInt8)) (fun (_ : Unit) _ => ([] : List UInt8))
  refine ⟨⟨(sampleRun sampleCalls (sampleInitial, [])).1,
    (sampleRun sampleBody (sampleRun sampleCalls (sampleInitial, []))).1,
    ⟨1, 1, ⟨0, 1⟩, 0, 2, false⟩,
    (sampleRun sampleCalls (sampleInitial, [])).2,
    (sampleRun sampleBody (sampleRun sampleCalls (sampleInitial, []))).2, rfl, ?_, rfl, ?_, ?_⟩,
    ⟨(sampleRun sampleScript (sampleInitial, [])).1,
      (sampleFictive (sampleRun sampleScript (sampleInitial, [])).1).1,
      (sampleRun sampleScript (sampleInitial, [])).2,
      (sampleFictive (sampleRun sampleScript (sampleInitial, [])).1).2, rfl, rfl, ?_⟩⟩
  · decide
  · decide
  · exact claim.1 _ (sampleRun sampleBody (sampleRun sampleCalls (sampleInitial, []))).1
      ⟨1, 1, ⟨0, 1⟩, 0, 2, false⟩ sampleBody (sampleRun sampleCalls (sampleInitial, [])).2
      (sampleRun sampleBody (sampleRun sampleCalls (sampleInitial, []))).2 (by decide) rfl
      (by decide)
  · exact (claim.2 .verifyExecute [] ⟨0, 0, 0, 1⟩ .increasedBootloaderMemory sampleScript _ _ _ _
      rfl rfl).1

/-- Snapshots applied out of the order of a stack do not restore: with `first` taken, a
transaction pushed and `second` taken, applying `first`, pushing another transaction and applying
`second` leaves the other transaction where `second` saw the first. -/
theorem crossingSnapshots_restore_other_tx :
    ∃ (first second : BootloaderStateSnapshot) (pushed restored : BootloaderState Unit Unit),
      sampleInitial.getSnapshot = some first ∧
      (sampleInitial.pushTx (fun _ => 0) (fun _ => []) 1 [5, 6] 0 0 [] 100).map Prod.snd =
        some pushed ∧
      pushed.getSnapshot = some second ∧
      ((pushed.applySnapshot first).bind fun state =>
        (state.pushTx (fun _ => 0) (fun _ => []) 2 [8] 0 0 [] 100).bind fun (_, state) =>
          state.applySnapshot second) = some restored ∧
      restored.l2Blocks ≠ pushed.l2Blocks := by
  let pushed := ((sampleInitial.pushTx (fun _ => 0) (fun _ => []) 1 [5, 6] 0 0 [] 100).map
    Prod.snd).getD sampleInitial
  let restored := (((pushed.applySnapshot ⟨0, 1, ⟨0, 0⟩, 0, 0, false⟩).bind fun state =>
    (state.pushTx (fun _ => 0) (fun _ => []) 2 [8] 0 0 [] 100).bind fun (_, state) =>
      state.applySnapshot ⟨0, 1, ⟨0, 1⟩, 0, 2, false⟩)).getD sampleInitial
  exact ⟨⟨0, 1, ⟨0, 0⟩, 0, 0, false⟩, ⟨0, 1, ⟨0, 1⟩, 0, 2, false⟩, pushed, restored,
    by decide, by decide, by decide, by decide, by decide⟩

end Script

end ZksyncEra.Multivm
