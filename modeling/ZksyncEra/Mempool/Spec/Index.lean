import ZksyncEra.Mempool.Store

/-!
The index of the mempool store: the priority queue holds one score per account that holds the
transaction at its nonce, the score of that transaction. `next_transaction` trusts the queue to
point at accounts present in the store, and `rollback` trusts the account of a returned
transaction to be present.

Two calls break that trust. `gc` purges every account the queue does not point at, and an account
whose last transaction was just handed out is such an account, so a rollback of that transaction
finds no account. `rollback` of a transaction handed out before the account's latest one lowers the
account's nonce without touching the pointer to the account's next transaction, which then points
at a transaction the account does not hold at its nonce.
-/

namespace ZksyncEra.Mempool

open MempoolStore

/-- The score of the transaction an account is to send next, if the account holds it. -/
def AccountTransactions.currentScore (txs : AccountTransactions) : Option MempoolScore :=
  (txs.transactions.lookup txs.nonce).map (scoreForTransaction ·.1)

/-- The scores the priority queue is meant to hold. -/
def MempoolStore.currentScores (self : MempoolStore) : List MempoolScore :=
  self.l2TransactionsPerAccount.entries.filterMap (·.2.currentScore)

/-- The queue holds exactly the current scores of the accounts. -/
def MempoolStore.IndexConsistent (self : MempoolStore) : Prop :=
  self.l2PriorityQueue.Perm self.currentScores

instance : DecidablePred MempoolStore.IndexConsistent :=
  fun self => List.decidablePerm self.l2PriorityQueue self.currentScores

/-- An L2 transaction of `account` at `nonce` offering no fee, received at `receivedAt`. -/
def l2Transaction (account : Address) (nonce receivedAt : Nat) : Transaction :=
  ⟨.l2 ⟨nonce, ⟨0, 0, 0, 0⟩, account⟩, receivedAt⟩

/-! ### Rollback -/

theorem AccountTransactions.reset_of_l2 (txs : AccountTransactions) (tx : Transaction)
    (data : L2TxCommonData) (l2 : tx.commonData = .l2 data) :
    txs.reset tx = some ((txs.transactions.lookup (data.nonce + 1)).map
      (fun (successor, constraint) => (scoreForTransaction successor, constraint)),
      { txs with nonce := min txs.nonce data.nonce }) := by
  simp [AccountTransactions.reset, Transaction.nonce, l2]

/-- A rollback panics on an account the store does not hold. -/
theorem rollback_of_absent (self : MempoolStore) (tx : Transaction) (data : L2TxCommonData)
    (l2 : tx.commonData = .l2 data)
    (absent : self.l2TransactionsPerAccount.lookup tx.initiatorAccount = none) :
    self.rollback tx = none := by
  simp [rollback, l2, absent]

/-- A rollback of a transaction whose successor the account does not hold lowers the account's
nonce and leaves the queue as it is. -/
theorem rollback_of_no_successor (self : MempoolStore) (tx : Transaction) (data : L2TxCommonData)
    (l2 : tx.commonData = .l2 data) (txs : AccountTransactions)
    (present : self.l2TransactionsPerAccount.lookup tx.initiatorAccount = some txs)
    (noSuccessor : txs.transactions.lookup (data.nonce + 1) = none) :
    self.rollback tx = some (default, { self with
      l2TransactionsPerAccount := self.l2TransactionsPerAccount.insert tx.initiatorAccount
        { txs with nonce := min txs.nonce data.nonce } }) := by
  simp [rollback, l2, present, txs.reset_of_l2 tx data l2, noSuccessor]

/-- A rollback of the first of two transactions the state keeper took from one account keeps the
pointer to the account's third transaction while the account's nonce goes back to the first, which
the account no longer holds: the index is broken, and the next `next_transaction` panics. -/
theorem rollback_of_earlier_transaction_breaks_index :
    let handOut : List Call :=
      [.insert [(l2Transaction 1 0 0, default), (l2Transaction 1 1 1, default),
          (l2Transaction 1 2 2, default)] ∅,
        .nextTransaction ⟨0, 0⟩, .nextTransaction ⟨0, 0⟩]
    (MempoolGuard.run (MempoolStore.new 0 10) handOut).map (decide ·.2.IndexConsistent) = some true ∧
    (MempoolGuard.run (MempoolStore.new 0 10) (handOut ++ [.rollback (l2Transaction 1 0 0)])).map
        (fun (responses, store) => (responses, decide store.IndexConsistent)) =
      some ([.insert, .nextTransaction (some (l2Transaction 1 0 0, default)),
        .nextTransaction (some (l2Transaction 1 1 1, default)), .rollback default], false) ∧
    MempoolGuard.run (MempoolStore.new 0 10)
      (handOut ++ [.rollback (l2Transaction 1 0 0), .nextTransaction ⟨0, 0⟩]) = none := by
  decide

/-- The same rollback leaves a store with no L1 transaction to hand out and a queue whose best
score passes the filter, yet `next_transaction` panics there: the account the score points at no
longer holds a transaction at its nonce. -/
theorem nextTransaction_panics_after_rollback :
    (MempoolGuard.run (MempoolStore.new 0 10)
        [.insert [(l2Transaction 1 0 0, default), (l2Transaction 1 1 1, default),
            (l2Transaction 1 2 2, default)] ∅,
          .nextTransaction ⟨0, 0⟩, .nextTransaction ⟨0, 0⟩, .rollback (l2Transaction 1 0 0)]).map
      (fun (_, store) => ((store.l1Transactions.lookup store.nextPriorityId).isNone,
        store.hasNext ⟨0, 0⟩, (store.nextTransaction ⟨0, 0⟩).isNone)) =
      some (true, true, true) := by
  decide

/-! ### Garbage collection -/

/-- Every account `gc` keeps is the account of a pointer it walked. -/
theorem collectKept_accounts (transactions : HashMap Address AccountTransactions)
    (pointers : List MempoolScore) :
    ∀ entry ∈ (collectKept transactions pointers).1, ∃ pointer ∈ pointers, pointer.account = entry.1 := by
  induction pointers generalizing transactions with
  | nil => simp [collectKept]
  | cons pointer rest ih =>
    intro entry member
    unfold collectKept at member
    split at member
    · rcases List.mem_cons.mp member with rfl | later
      · exact ⟨pointer, List.mem_cons_self, rfl⟩
      · obtain ⟨found, inRest, same⟩ := ih _ entry later
        exact ⟨found, List.mem_cons_of_mem _ inRest, same⟩
    · obtain ⟨found, inRest, same⟩ := ih _ entry member
      exact ⟨found, List.mem_cons_of_mem _ inRest, same⟩

theorem lookup_foldl_insert_of_not_mem (kept : List (Address × AccountTransactions))
    (map : HashMap Address AccountTransactions) (account : Address)
    (absent : map.lookup account = none) (notKept : ∀ entry ∈ kept, entry.1 ≠ account) :
    (kept.foldl (fun map (address, txs) => map.insert address txs) map).lookup account = none := by
  induction kept generalizing map with
  | nil => exact absent
  | cons entry rest ih =>
    have other : account ≠ entry.1 := fun same => notKept entry List.mem_cons_self same.symm
    exact ih _ (by simp [AList.lookup_insert_ne other, absent])
      (fun later member => notKept later (List.mem_cons_of_mem _ member))

/-- Over capacity, `gc` purges every account the queue does not point at. -/
theorem gc_purges_unpointed (self : MempoolStore) (overCapacity : self.capacity < self.size)
    (account : Address) (unpointed : ∀ pointer ∈ self.l2PriorityQueue, pointer.account ≠ account) :
    self.gc.2.l2TransactionsPerAccount.lookup account = none := by
  have notKept : ∀ entry ∈ (collectKept self.l2TransactionsPerAccount
      self.l2PriorityQueue.reverse).1, entry.1 ≠ account := by
    intro entry member same
    obtain ⟨pointer, walked, pointsAt⟩ := collectKept_accounts _ _ entry member
    exact unpointed pointer (List.mem_reverse.mp walked) (pointsAt.trans same)
  simp only [gc, overCapacity, if_true]
  exact lookup_foldl_insert_of_not_mem _ ∅ account rfl
    (fun entry member => notKept entry (List.mem_of_mem_take member))

/-- Once the fetcher's `get_mempool_info` finds the store over capacity, a rollback of an account
the queue does not point at panics. -/
theorem rollback_after_getMempoolInfo_of_unpointed (self : MempoolStore)
    (overCapacity : self.capacity < self.size) (tx : Transaction) (data : L2TxCommonData)
    (l2 : tx.commonData = .l2 data)
    (unpointed : ∀ pointer ∈ self.l2PriorityQueue, pointer.account ≠ tx.initiatorAccount) :
    self.getMempoolInfo.2.rollback tx = none :=
  rollback_of_absent _ tx data l2
    (gc_purges_unpointed { self with stashedAccounts := [] } overCapacity _ unpointed)

/-- The state keeper takes the only transaction of account `1`, the fetcher's `get_mempool_info`
then finds the store over capacity and purges the account, and the state keeper's rollback of the
transaction panics. -/
theorem rollback_after_gc_of_handed_out_account :
    let handOut : List Call :=
      [.insert [(l2Transaction 1 0 0, default), (l2Transaction 2 0 1, default),
          (l2Transaction 2 1 2, default)] ∅,
        .nextTransaction ⟨0, 0⟩, .getMempoolInfo]
    (MempoolGuard.run (MempoolStore.new 0 1) handOut).map Prod.fst =
      some [.insert, .nextTransaction (some (l2Transaction 1 0 0, default)),
        .getMempoolInfo ⟨[], [1]⟩] ∧
    MempoolGuard.run (MempoolStore.new 0 1) (handOut ++ [.rollback (l2Transaction 1 0 0)]) = none := by
  decide

end ZksyncEra.Mempool
