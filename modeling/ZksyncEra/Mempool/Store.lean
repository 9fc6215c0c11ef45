import ZksyncEra.Mempool.Types
import ZksyncEra.Lib.OrdList

/-!
The mempool store (`mempool/src/mempool_store.rs`).

L1 transactions wait by priority id and leave in id order. L2 transactions wait per account; the
global priority queue holds one score per account that has a transaction at its current nonce,
and `next_transaction` takes the best-scored account that passes the fee filter, stashing (and
dropping) the better-scored accounts that do not. `rollback` resets an account's nonce to a
returned transaction's, and `gc` keeps, when the store is over capacity, the best-scored accounts
that fit.

The priority queue (`BTreeSet<MempoolScore>`) is an ascending list under `MempoolScore.cmp`.
Panics (`expect`, `checked_sub`, `panic!`) are `none`; each operation returns the new store.
-/

namespace ZksyncEra.Mempool

/-- `MempoolInfo`. -/
structure MempoolInfo where
  stashedAccounts : List Address
  purgedAccounts : List Address
  deriving DecidableEq, Repr

/-- `MempoolStats`. -/
structure MempoolStats where
  l1TransactionCount : Nat
  l2TransactionCount : Nat
  l2PriorityQueueSize : Nat
  deriving DecidableEq, Repr

/-- `MempoolStore`. -/
structure MempoolStore where
  /-- Pending L1 transactions -/
  l1Transactions : HashMap Nat L1Tx
  /-- Pending L2 transactions grouped by initiator address -/
  l2TransactionsPerAccount : HashMap Address AccountTransactions
  /-- Global priority queue for L2 transactions, in ascending order -/
  l2PriorityQueue : List MempoolScore
  /-- Next priority operation -/
  nextPriorityId : Nat
  stashedAccounts : List Address
  /-- Number of L2 transactions in the mempool -/
  size : Nat
  capacity : Nat

namespace MempoolStore

/-- `MempoolStore::new`. -/
def new (nextPriorityId capacity : Nat) : MempoolStore :=
  ⟨∅, ∅, [], nextPriorityId, [], 0, capacity⟩

/-- `insert_l2_transaction`: the account's transactions, bootstrapped from `initial_nonces` for a
new account, take the transaction; the queue swaps the scores the insertion reports. -/
def insertL2Transaction (self : MempoolStore) (transaction : L2Tx)
    (constraint : TransactionTimeRangeConstraint) (initialNonces : HashMap Address Nat) :
    MempoolStore :=
  let account := transaction.initiatorAccount
  let txs := match self.l2TransactionsPerAccount.lookup account with
    | some txs => txs
    | none => AccountTransactions.new ((initialNonces.lookup account).getD 0)
  let (metadata, txs) := txs.insert transaction constraint
  let queue := match metadata.previousScore with
    | some score => OrdList.erase MempoolScore.cmp score self.l2PriorityQueue
    | none => self.l2PriorityQueue
  let queue := match metadata.newScore with
    | some score => OrdList.insert MempoolScore.cmp score queue
    | none => queue
  { self with
    l2TransactionsPerAccount := self.l2TransactionsPerAccount.insert account txs
    l2PriorityQueue := queue
    size := if metadata.isNew then self.size + 1 else self.size }

/-- One transaction of `insert`: an L1 transaction by its priority id, an L2 transaction into its
account; a protocol upgrade panics. -/
def insertOne (self : MempoolStore) (initialNonces : HashMap Address Nat)
    (entry : Transaction × TransactionTimeRangeConstraint) : Option MempoolStore :=
  let (transaction, constraint) := entry
  match transaction.commonData with
  | .l1 data =>
    some { self with
      l1Transactions := self.l1Transactions.insert data.serialId
        ⟨data, transaction.receivedTimestampMs⟩ }
  | .l2 data =>
    some (self.insertL2Transaction ⟨data, transaction.receivedTimestampMs⟩ constraint initialNonces)
  -- "Protocol upgrade tx is not supposed to be inserted into mempool"
  | .protocolUpgrade _ => none

/-- `insert`: a batch of transactions, one after another. -/
def insert (self : MempoolStore) (transactions : List (Transaction × TransactionTimeRangeConstraint))
    (initialNonces : HashMap Address Nat) : Option MempoolStore :=
  transactions.foldlM (insertOne · initialNonces) self

/-- `has_next`. -/
def hasNext (self : MempoolStore) (filter : L2TxFilter) : Bool :=
  (self.l1Transactions.lookup self.nextPriorityId).isSome ||
    (OrdList.rfind (·.matchesFilter filter) self.l2PriorityQueue).isSome

/-- The loop of `next_transaction` over the stashed pointers: each account is dropped, its
transactions counted, and its address stashed; a pointer without an account panics. -/
def stash (self : MempoolStore) (removed : Nat) :
    List MempoolScore → Option (MempoolStore × Nat)
  | [] => some (self, removed)
  | stashedPointer :: rest => do
    -- "mempool: dangling pointer in priority queue"
    let txs ← self.l2TransactionsPerAccount.lookup stashedPointer.account
    let self := { self with
      l2TransactionsPerAccount := self.l2TransactionsPerAccount.erase stashedPointer.account
      stashedAccounts := self.stashedAccounts ++ [stashedPointer.account] }
    stash self (removed + txs.len) rest

/-- `next_transaction`: the next L1 transaction by priority id if there is one; otherwise the
next transaction of the best-scored account that passes the filter, after stashing the accounts
scored better. The outer `none` is a panic. -/
def nextTransaction (self : MempoolStore) (filter : L2TxFilter) :
    Option (Option (Transaction × TransactionTimeRangeConstraint) × MempoolStore) :=
  match self.l1Transactions.lookup self.nextPriorityId with
  | some transaction =>
    some (some (transaction.toTransaction, default),
      { self with
        l1Transactions := self.l1Transactions.erase self.nextPriorityId
        nextPriorityId := self.nextPriorityId + 1 })
  | none =>
    -- We want to fetch the next transaction that would match the fee requirements.
    match OrdList.rfind (·.matchesFilter filter) self.l2PriorityQueue with
    | none => some (none, self)
    | some txPointer => do
      let (kept, splitOff) := OrdList.splitOff MempoolScore.cmp txPointer self.l2PriorityQueue
      -- Stash all observed transactions that don't meet criteria
      let (self, removed) ← stash { self with l2PriorityQueue := kept } 0 (splitOff.drop 1)
      -- "mempool: dangling pointer in priority queue"
      let txs ← self.l2TransactionsPerAccount.lookup txPointer.account
      let ((transaction, constraint, score), txs) ← txs.next
      let queue := match score with
        | some score => OrdList.insert MempoolScore.cmp score self.l2PriorityQueue
        | none => self.l2PriorityQueue
      -- "mempool size can't be negative"
      if removed + 1 ≤ self.size then
        some (some (transaction.toTransaction, constraint),
          { self with
            l2TransactionsPerAccount := self.l2TransactionsPerAccount.insert txPointer.account txs
            l2PriorityQueue := queue
            size := self.size - (removed + 1) })
      else none

/-- `rollback`: an L1 transaction resets the next priority id, an L2 transaction its account's
nonce, dropping the score of its successor from the queue. The panics on a missing account and
on a protocol upgrade are `none`. -/
def rollback (self : MempoolStore) (tx : Transaction) :
    Option (TransactionTimeRangeConstraint × MempoolStore) :=
  match tx.commonData with
  | .l1 data => some (default, { self with nextPriorityId := min self.nextPriorityId data.serialId })
  | .l2 _ => do
    -- "account is not available in mempool"
    let txs ← self.l2TransactionsPerAccount.lookup tx.initiatorAccount
    let (successor, txs) ← txs.reset tx
    let self := { self with
      l2TransactionsPerAccount := self.l2TransactionsPerAccount.insert tx.initiatorAccount txs }
    match successor with
    | some (score, constraint) =>
      some (constraint,
        { self with l2PriorityQueue := OrdList.erase MempoolScore.cmp score self.l2PriorityQueue })
    | none => some (default, self)
  -- "Protocol upgrade tx is not supposed to be in mempool"
  | .protocolUpgrade _ => none

/-- The `filter_map` of `gc` over the queue from its best score down: each pointer takes its
account's transactions out of the map, if they are still there. -/
def collectKept (transactions : HashMap Address AccountTransactions) :
    List MempoolScore → List (Address × AccountTransactions) × HashMap Address AccountTransactions
  | [] => ([], transactions)
  | pointer :: rest =>
    match transactions.lookup pointer.account with
    | some txs =>
      let (kept, transactions) := collectKept (transactions.erase pointer.account) rest
      ((pointer.account, txs) :: kept, transactions)
    | none => collectKept transactions rest

/-- The loop of `gc` that counts how many of the best-scored accounts fit in the capacity. -/
def countKept (capacity : Nat) (sum numberOfAccountsKept : Nat) :
    List (Address × AccountTransactions) → Nat
  | [] => numberOfAccountsKept
  | (_, txs) :: rest =>
    if sum + txs.len ≤ capacity then countKept capacity (sum + txs.len) (numberOfAccountsKept + 1) rest
    else numberOfAccountsKept

/-- `gc`: when the store holds more L2 transactions than its capacity, only the best-scored
accounts that fit stay (at least one), every other account is purged, and the queue keeps as many
of its best scores. Returns the purged accounts. -/
def gc (self : MempoolStore) : List Address × MempoolStore :=
  if self.size > self.capacity then
    let (possiblyKept, transactions) :=
      collectKept self.l2TransactionsPerAccount self.l2PriorityQueue.reverse
    let numberOfAccountsKept := countKept self.capacity 0 0 possiblyKept
    -- Keep at least one entry, otherwise mempool won't return any new L2 tx to process.
    let numberOfAccountsKept :=
      if numberOfAccountsKept = 0 ∧ possiblyKept ≠ [] then 1 else numberOfAccountsKept
    let drained := transactions.keys ++ (possiblyKept.drop numberOfAccountsKept).map (·.1)
    let kept := possiblyKept.take numberOfAccountsKept
    let l2TransactionsPerAccount : HashMap Address AccountTransactions :=
      kept.foldl (fun map (address, txs) => map.insert address txs) ∅
    (drained,
      { self with
        l2PriorityQueue :=
          OrdList.ofList MempoolScore.cmp (self.l2PriorityQueue.reverse.take numberOfAccountsKept)
        l2TransactionsPerAccount
        size := (l2TransactionsPerAccount.entries.map fun entry => entry.2.len).sum })
  else ([], self)

/-- `get_mempool_info`: the stashed accounts, taken, and the accounts `gc` purges. -/
def getMempoolInfo (self : MempoolStore) : MempoolInfo × MempoolStore :=
  let stashedAccounts := self.stashedAccounts
  let (purgedAccounts, self) := gc { self with stashedAccounts := [] }
  (⟨stashedAccounts, purgedAccounts⟩, self)

/-- `stats`. -/
def stats (self : MempoolStore) : MempoolStats :=
  ⟨self.l1Transactions.entries.length, self.size, self.l2PriorityQueue.length⟩

end MempoolStore

/-! ### The guard

`MempoolGuard` (`state_keeper/src/types.rs`) shares the store between the state keeper and the
mempool fetcher behind a mutex. Each call holds the lock for its whole run, so an interleaving of
the two is a sequence of calls, and a panic poisons the lock for every later call. -/

/-- A call on `MempoolGuard`. -/
inductive Call where
  | insert (transactions : List (Transaction × TransactionTimeRangeConstraint))
      (nonces : HashMap Address Nat)
  | hasNext (filter : L2TxFilter)
  | nextTransaction (filter : L2TxFilter)
  | rollback (rejected : Transaction)
  | getMempoolInfo

/-- What a call on `MempoolGuard` returns. -/
inductive Response where
  | insert
  | hasNext (result : Bool)
  | nextTransaction (result : Option (Transaction × TransactionTimeRangeConstraint))
  | rollback (constraint : TransactionTimeRangeConstraint)
  | getMempoolInfo (info : MempoolInfo)
  deriving DecidableEq, Repr

namespace MempoolGuard

/-- One call under the lock; `none` is a panic. -/
def call (store : MempoolStore) : Call → Option (Response × MempoolStore)
  | .insert transactions nonces => (store.insert transactions nonces).map (.insert, ·)
  | .hasNext filter => some (.hasNext (store.hasNext filter), store)
  | .nextTransaction filter =>
    (store.nextTransaction filter).map fun (result, store) => (.nextTransaction result, store)
  | .rollback rejected =>
    (store.rollback rejected).map fun (constraint, store) => (.rollback constraint, store)
  | .getMempoolInfo =>
    let (info, store) := store.getMempoolInfo
    some (.getMempoolInfo info, store)

/-- A sequence of calls and their responses; a panic ends the run. -/
def run (store : MempoolStore) : List Call → Option (List Response × MempoolStore)
  | [] => some ([], store)
  | first :: rest => do
    let (response, store) ← call store first
    let (responses, store) ← run store rest
    pure (response :: responses, store)

end MempoolGuard

end ZksyncEra.Mempool
