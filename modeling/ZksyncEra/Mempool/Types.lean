import ZksyncEra.BasicTypes

/-!
Transactions as the mempool sees them, and the pending transactions of an account
(`mempool/src/types.rs`).

A transaction keeps the data the mempool reads: the priority id of an L1 transaction, and the
initiator, nonce and fee of an L2 transaction, with the time it was received. An account holds its
transactions by nonce and the next nonce it expects; its score in the global queue is the score of
the transaction at that nonce. Scores are ordered by receipt time, earlier first, then by account,
while their fee data is ignored by the order.

Nonces and counters are natural numbers (`u32`/`u64` in the source; no modelled run comes near
overflow). `HashMap`s are association lists.
-/

namespace ZksyncEra.Mempool

/-- Rust's `HashMap<K, V>`. -/
abbrev HashMap (K V : Type) := AList fun _ : K => V

/-- `Fee`. -/
structure Fee where
  gasLimit : Nat
  maxFeePerGas : Nat
  maxPriorityFeePerGas : Nat
  gasPerPubdataLimit : Nat
  deriving DecidableEq, Repr

/-- `L1TxCommonData`: the fields the mempool reads. -/
structure L1TxCommonData where
  sender : Address
  serialId : Nat
  deriving DecidableEq, Repr

/-- `L2TxCommonData`: the fields the mempool reads. -/
structure L2TxCommonData where
  nonce : Nat
  fee : Fee
  initiatorAddress : Address
  deriving DecidableEq, Repr

/-- `ExecuteTransactionCommon`. -/
inductive ExecuteTransactionCommon where
  | l1 (data : L1TxCommonData)
  | l2 (data : L2TxCommonData)
  | protocolUpgrade (sender : Address)
  deriving DecidableEq, Repr

/-- `Transaction`. -/
structure Transaction where
  commonData : ExecuteTransactionCommon
  receivedTimestampMs : Nat
  deriving DecidableEq, Repr

/-- `L1Tx`. -/
structure L1Tx where
  commonData : L1TxCommonData
  receivedTimestampMs : Nat
  deriving DecidableEq, Repr

/-- `L2Tx`. -/
structure L2Tx where
  commonData : L2TxCommonData
  receivedTimestampMs : Nat
  deriving DecidableEq, Repr

/-- `TransactionTimeRangeConstraint`. -/
structure TransactionTimeRangeConstraint where
  timestampAsserterRange : Option (Nat × Nat)
  deriving DecidableEq, Repr

instance : Inhabited TransactionTimeRangeConstraint := ⟨⟨none⟩⟩

namespace Transaction

/-- `Transaction::nonce`. -/
def nonce (self : Transaction) : Option Nat :=
  match self.commonData with
  | .l1 _ => none
  | .l2 tx => some tx.nonce
  | .protocolUpgrade _ => none

/-- `Transaction::initiator_account`. -/
def initiatorAccount (self : Transaction) : Address :=
  match self.commonData with
  | .l1 data => data.sender
  | .l2 data => data.initiatorAddress
  | .protocolUpgrade sender => sender

end Transaction

/-- `From<L1Tx> for Transaction`. -/
def L1Tx.toTransaction (tx : L1Tx) : Transaction := ⟨.l1 tx.commonData, tx.receivedTimestampMs⟩

/-- `From<L2Tx> for Transaction`. -/
def L2Tx.toTransaction (tx : L2Tx) : Transaction := ⟨.l2 tx.commonData, tx.receivedTimestampMs⟩

/-- `L2Tx::initiator_account`. -/
def L2Tx.initiatorAccount (tx : L2Tx) : Address := tx.commonData.initiatorAddress

/-- `MempoolScore`: the priority of an account's next transaction. -/
structure MempoolScore where
  account : Address
  receivedAtMs : Nat
  /-- Not used for the order; the state keeper filters by it. -/
  feeData : Fee
  deriving DecidableEq, Repr

/-- `L2TxFilter`: the fees a transaction must at least offer; the batch fee input is left out. -/
structure L2TxFilter where
  feePerGas : Nat
  gasPerPubdata : Nat
  deriving DecidableEq, Repr

namespace MempoolScore

/-- `matches_filter`. -/
def matchesFilter (self : MempoolScore) (filter : L2TxFilter) : Bool :=
  self.feeData.maxFeePerGas ≥ filter.feePerGas && self.feeData.gasPerPubdataLimit ≥ filter.gasPerPubdata

/-- `Ord for MempoolScore`: later receipt first, then the account. -/
def cmp (self other : MempoolScore) : Ordering :=
  match (compare self.receivedAtMs other.receivedAtMs).swap with
  | .eq => compare self.account.toNat other.account.toNat
  | ordering => ordering

end MempoolScore

/-- `InsertionMetadata`. -/
structure InsertionMetadata where
  newScore : Option MempoolScore
  previousScore : Option MempoolScore
  isNew : Bool
  deriving DecidableEq, Repr

instance : Inhabited InsertionMetadata := ⟨⟨none, none, false⟩⟩

/-- `AccountTransactions`: the pending transactions of an account by nonce, and the account's
mempool nonce, its committed nonce plus the transactions sent to the state keeper. -/
structure AccountTransactions where
  transactions : HashMap Nat (L2Tx × TransactionTimeRangeConstraint)
  nonce : Nat

namespace AccountTransactions

def new (nonce : Nat) : AccountTransactions := ⟨∅, nonce⟩

/-- `score_for_transaction`. -/
def scoreForTransaction (transaction : L2Tx) : MempoolScore :=
  { account := transaction.initiatorAccount
    receivedAtMs := transaction.receivedTimestampMs
    feeData := transaction.commonData.fee }

/-- `insert`: a transaction below the account's nonce is skipped; one at the nonce reports its
score and the score it replaces. -/
def insert (self : AccountTransactions) (transaction : L2Tx)
    (constraint : TransactionTimeRangeConstraint) : InsertionMetadata × AccountTransactions :=
  let nonce := transaction.commonData.nonce
  -- skip insertion if transaction is old
  if nonce < self.nonce then (default, self)
  else
    let newScore := scoreForTransaction transaction
    let previousScore := (self.transactions.lookup nonce).map (scoreForTransaction ·.1)
    let self := { self with transactions := self.transactions.insert nonce (transaction, constraint) }
    let isNew := previousScore.isNone
    if nonce = self.nonce then (⟨some newScore, previousScore, isNew⟩, self)
    else (⟨none, none, isNew⟩, self)

/-- `next`: the transaction at the account's nonce and the score of its successor; `none` is the
panic on a missing transaction. -/
def next (self : AccountTransactions) :
    Option ((L2Tx × TransactionTimeRangeConstraint × Option MempoolScore) × AccountTransactions) := do
  let transaction ← self.transactions.lookup self.nonce   -- "missing transaction in mempool"
  let self := { self with transactions := self.transactions.erase self.nonce, nonce := self.nonce + 1 }
  let score := (self.transactions.lookup self.nonce).map (scoreForTransaction ·.1)
  pure ((transaction.1, transaction.2, score), self)

/-- `reset`: the nonce goes back to the rejected transaction's, and the score of its successor is
returned with its constraint; `none` is the panic on a transaction without a nonce. -/
def reset (self : AccountTransactions) (transaction : Transaction) :
    Option (Option (MempoolScore × TransactionTimeRangeConstraint) × AccountTransactions) := do
  let txNonce ← transaction.nonce   -- "nonce is not set for L2 transaction"
  let self := { self with nonce := min self.nonce txNonce }
  pure ((self.transactions.lookup (txNonce + 1)).map
    (fun (tx, c) => (scoreForTransaction tx, c)), self)

def len (self : AccountTransactions) : Nat := self.transactions.entries.length

end AccountTransactions

end ZksyncEra.Mempool
