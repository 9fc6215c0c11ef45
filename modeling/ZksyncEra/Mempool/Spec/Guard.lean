import ZksyncEra.Mempool.Spec.NextTransaction
import ZksyncEra.Mempool.Spec.Gc

/-!
The mempool guard over whole runs.

The state keeper and the mempool fetcher share the store behind the guard's lock, so what they do
together is a sequence of calls. Every call keeps the store indexed except the `rollback` of an L2
transaction, and inserting a protocol upgrade, which panics. So from a new store, any sequence of
the other calls, in any interleaving of the two parties, never panics, and every store it reaches
answers `next_transaction`, `has_next` and `get_mempool_info` as their specifications say.
-/

namespace ZksyncEra.Mempool

open MempoolStore AccountTransactions

namespace ExecuteTransactionCommon

/-- An L1 transaction. -/
def isL1 : ExecuteTransactionCommon → Bool
  | .l1 _ => true
  | _ => false

/-- A protocol upgrade transaction, which the mempool refuses to hold. -/
def isProtocolUpgrade : ExecuteTransactionCommon → Bool
  | .protocolUpgrade _ => true
  | _ => false

theorem ne_protocolUpgrade {commonData : ExecuteTransactionCommon}
    (other : commonData.isProtocolUpgrade = false) (sender : Address) :
    commonData ≠ .protocolUpgrade sender := by
  rintro rfl
  cases other

end ExecuteTransactionCommon

/-- The calls that keep the store indexed: every call but the `rollback` of an L2 transaction,
with no protocol upgrade inserted. -/
def Call.keepsIndex : Call → Bool
  | .insert transactions _ => transactions.all fun entry => !entry.1.commonData.isProtocolUpgrade
  | .rollback rejected => rejected.commonData.isL1
  | _ => true

/-- A call that keeps the index never panics and keeps the store indexed. -/
theorem MempoolStore.Indexed.call {store : MempoolStore} (indexed : store.Indexed) (call : Call)
    (keeps : call.keepsIndex = true) :
    ∃ response store', MempoolGuard.call store call = some (response, store') ∧ store'.Indexed := by
  cases call with
  | insert transactions nonces =>
    have noUpgrade : ∀ entry ∈ transactions, ∀ sender, entry.1.commonData ≠ .protocolUpgrade sender := by
      intro entry member
      have refused := List.all_eq_true.mp keeps entry member
      exact ExecuteTransactionCommon.ne_protocolUpgrade (by simpa using refused)
    obtain ⟨store', inserted, kept⟩ := indexed.insert transactions nonces noUpgrade
    exact ⟨.insert, store', by simp [MempoolGuard.call, inserted], kept⟩
  | hasNext filter => exact ⟨_, store, rfl, indexed⟩
  | nextTransaction filter =>
    obtain ⟨result, store', returned, _, kept⟩ := indexed.nextTransaction filter
    exact ⟨.nextTransaction result, store', by simp [MempoolGuard.call, returned], kept⟩
  | rollback rejected =>
    obtain ⟨commonData, receivedAt⟩ := rejected
    cases commonData with
    | l1 data => exact ⟨_, _, rfl, indexed.sorted, indexed.consistent, indexed.owned, indexed.size_eq⟩
    | l2 data => cases keeps
    | protocolUpgrade sender => cases keeps
  | getMempoolInfo => exact ⟨_, _, rfl, indexed.getMempoolInfo.2.2⟩

/-- A run of calls that keep the index never panics, answers every call, and keeps the store
indexed. -/
theorem MempoolStore.Indexed.run {store : MempoolStore} (indexed : store.Indexed) (calls : List Call)
    (keeps : ∀ call ∈ calls, call.keepsIndex = true) :
    ∃ responses store', MempoolGuard.run store calls = some (responses, store') ∧
      responses.length = calls.length ∧ store'.Indexed := by
  induction calls generalizing store with
  | nil => exact ⟨[], store, rfl, rfl, indexed⟩
  | cons call rest ih =>
    obtain ⟨response, next, called, kept⟩ := indexed.call call (keeps call List.mem_cons_self)
    obtain ⟨responses, last, ran, answered, indexedLast⟩ :=
      ih kept fun later member => keeps later (List.mem_cons_of_mem call member)
    refine ⟨response :: responses, last, ?_, by simp [answered], indexedLast⟩
    simp [MempoolGuard.run, called, ran]

/-- A store the guard reaches from a new store by calls that keep the index. -/
def Reachable (store : MempoolStore) : Prop :=
  ∃ nextPriorityId capacity calls responses, (∀ call ∈ calls, Call.keepsIndex call = true) ∧
    MempoolGuard.run (MempoolStore.new nextPriorityId capacity) calls = some (responses, store)

theorem Reachable.indexed {store : MempoolStore} (reachable : Reachable store) : store.Indexed := by
  obtain ⟨nextPriorityId, capacity, calls, responses, keeps, ran⟩ := reachable
  obtain ⟨_, last, ran', _, indexed⟩ := (new_indexed nextPriorityId capacity).run calls keeps
  rw [ran] at ran'
  cases ran'
  exact indexed

/-! ### What every run without an L2 rollback does -/

/-- From a new store, any sequence of guard calls, in any interleaving of the state keeper and the
fetcher, that rolls back no L2 transaction and inserts no protocol upgrade never panics and
answers every call. The store it reaches is indexed, so `stats` reports the L2 transactions the
accounts hold and the accounts that have a transaction at their nonce. -/
theorem run_from_new_never_panics (nextPriorityId capacity : Nat) (calls : List Call)
    (keeps : ∀ call ∈ calls, call.keepsIndex = true) :
    ∃ responses store, MempoolGuard.run (MempoolStore.new nextPriorityId capacity) calls =
        some (responses, store) ∧ responses.length = calls.length ∧ store.Indexed ∧
      store.stats.l2TransactionCount = txCount store.l2TransactionsPerAccount ∧
      store.stats.l2PriorityQueueSize = (scoresOf store.l2TransactionsPerAccount).length := by
  obtain ⟨responses, store, ran, answered, indexed⟩ := (new_indexed nextPriorityId capacity).run calls keeps
  exact ⟨responses, store, ran, answered, indexed, indexed.size_eq, indexed.consistent.length_eq⟩

theorem run_from_new_never_panics_handOut :
    let calls : List Call :=
      [.insert [(l2Transaction 1 0 0, default), (l2Transaction 1 1 1, default),
          (l2Transaction 2 0 2, default)] ∅,
        .nextTransaction ⟨0, 0⟩, .getMempoolInfo, .hasNext ⟨0, 0⟩, .nextTransaction ⟨0, 0⟩]
    (∀ call ∈ calls, call.keepsIndex = true) ∧
      ∃ responses store, MempoolGuard.run (MempoolStore.new 0 1) calls = some (responses, store) ∧
        responses.length = calls.length ∧ store.Indexed ∧
        store.stats.l2TransactionCount = txCount store.l2TransactionsPerAccount ∧
        store.stats.l2PriorityQueueSize = (scoresOf store.l2TransactionsPerAccount).length :=
  ⟨by decide, run_from_new_never_panics 0 1 _ (by decide)⟩

/-- On a reachable store with no L1 transaction due, `next_transaction` hands out nothing exactly when no score of the
queue passes the filter. Otherwise it hands out the transaction at the nonce of the account whose
score is the best that passes the filter, and every account scored better fails the filter, is
stashed in queue order and leaves the store. -/
theorem nextTransaction_hands_out_best_match (self : MempoolStore) (reachable : Reachable self)
    (filter : L2TxFilter) (noL1 : self.l1Transactions.lookup self.nextPriorityId = none) :
    ∃ result store, self.nextTransaction filter = some (result, store) ∧ store.Indexed ∧
      (result = none ↔ ∀ score ∈ self.l2PriorityQueue, score.matchesFilter filter = false) ∧
      ∀ handedOut, result = some handedOut →
        ∃ pointer ∈ self.l2PriorityQueue, pointer.matchesFilter filter = true ∧
          (∀ score ∈ self.l2PriorityQueue, score.matchesFilter filter = true →
            MempoolScore.cmp score pointer ≠ .gt) ∧
          (∃ txs entry, self.l2TransactionsPerAccount.lookup pointer.account = some txs ∧
            txs.transactions.lookup txs.nonce = some entry ∧ scoreForTransaction entry.1 = pointer ∧
            handedOut = (entry.1.toTransaction, entry.2)) ∧
          store.stashedAccounts = self.stashedAccounts ++
            (self.l2PriorityQueue.filter fun score => MempoolScore.cmp pointer score == .lt).map (·.account) ∧
          ∀ score ∈ self.l2PriorityQueue, MempoolScore.cmp pointer score = .lt →
            score.matchesFilter filter = false ∧ store.l2TransactionsPerAccount.lookup score.account = none := by
  have indexed := reachable.indexed
  cases found : OrdList.rfind (·.matchesFilter filter) self.l2PriorityQueue with
  | none =>
    refine ⟨none, self, nextTransaction_of_no_match noL1 found, indexed, ⟨fun _ => ?_, fun _ => rfl⟩,
      fun _ handed => by cases handed⟩
    exact OrdList.rfind_eq_none.mp found
  | some pointer =>
    obtain ⟨txs, entry, store, lookedUp, atNonce, scored, returned, stashed, dropped, kept⟩ :=
      indexed.nextTransaction_of_pointer noL1 found
    obtain ⟨passes, l₁, l₂, queue, _⟩ := OrdList.rfind_eq_some found
    have member : pointer ∈ self.l2PriorityQueue := by
      rw [queue]
      exact List.mem_append_right l₁ List.mem_cons_self
    -- no score that passes the filter is scored better than the pointer
    have greatest := indexed.sorted.rfind_greatest found
    refine ⟨_, store, returned, kept, ⟨fun handed => (by cases handed), fun noneMatch => ?_⟩, ?_⟩
    · rw [noneMatch pointer member] at passes
      cases passes
    · intro handedOut handed
      refine ⟨pointer, member, passes, greatest, ⟨txs, entry, lookedUp, atNonce, scored, (Option.some.inj handed).symm⟩,
        stashed, fun score inQueue higher => ⟨?_, dropped score inQueue higher⟩⟩
      cases fails : score.matchesFilter filter with
      | false => rfl
      | true => exact absurd (Std.OrientedCmp.gt_iff_lt.mpr higher) (greatest score inQueue fails)


theorem nextTransaction_hands_out_best_match_two_accounts :
    let calls : List Call := [.insert [(l2Transaction 1 0 0, default), (l2Transaction 2 0 1, default)] ∅]
    let store := ((MempoolGuard.run (MempoolStore.new 0 10) calls).map Prod.snd).getD (MempoolStore.new 0 10)
    Reachable store ∧ store.l1Transactions.lookup store.nextPriorityId = none ∧
      ∃ result store', store.nextTransaction ⟨0, 0⟩ = some (result, store') ∧ store'.Indexed ∧
        (result = none ↔ ∀ score ∈ store.l2PriorityQueue, score.matchesFilter ⟨0, 0⟩ = false) ∧
        ∀ handedOut, result = some handedOut →
          ∃ pointer ∈ store.l2PriorityQueue, pointer.matchesFilter ⟨0, 0⟩ = true ∧
            (∀ score ∈ store.l2PriorityQueue, score.matchesFilter ⟨0, 0⟩ = true →
              MempoolScore.cmp score pointer ≠ .gt) ∧
            (∃ txs entry, store.l2TransactionsPerAccount.lookup pointer.account = some txs ∧
              txs.transactions.lookup txs.nonce = some entry ∧
              AccountTransactions.scoreForTransaction entry.1 = pointer ∧
              handedOut = (entry.1.toTransaction, entry.2)) ∧
            store'.stashedAccounts = store.stashedAccounts ++
              (store.l2PriorityQueue.filter fun score => MempoolScore.cmp pointer score == .lt).map (·.account) ∧
            ∀ score ∈ store.l2PriorityQueue, MempoolScore.cmp pointer score = .lt →
              score.matchesFilter ⟨0, 0⟩ = false ∧ store'.l2TransactionsPerAccount.lookup score.account = none := by
  intro calls store
  have reachable : Reachable store := ⟨0, 10, calls, [.insert], by decide, rfl⟩
  exact ⟨reachable, rfl, nextTransaction_hands_out_best_match store reachable ⟨0, 0⟩ rfl⟩

/-- On a reachable store, `has_next` says exactly whether `next_transaction` hands out a
transaction. -/
theorem hasNext_iff_nextTransaction_hands_out (self : MempoolStore) (reachable : Reachable self)
    (filter : L2TxFilter) :
    self.hasNext filter = true ↔ ∃ handedOut store, self.nextTransaction filter = some (some handedOut, store) := by
  obtain ⟨result, store, returned, agrees, _⟩ := reachable.indexed.nextTransaction filter
  rw [← agrees, returned]
  cases result with
  | none => simp
  | some handedOut => simp

/-- A store with the L1 transaction of serial id 0 due, and one with L2 transactions of two
accounts: on both, `has_next` and `next_transaction` hand out a transaction. -/
theorem hasNext_iff_nextTransaction_hands_out_l1_l2 :
    let l1Calls : List Call := [.insert [(⟨.l1 ⟨7, 0⟩, 0⟩, default), (l2Transaction 1 0 1, default)] ∅]
    let l2Calls : List Call := [.insert [(l2Transaction 1 0 0, default), (l2Transaction 2 0 1, default)] ∅]
    let l1Store := ((MempoolGuard.run (MempoolStore.new 0 10) l1Calls).map Prod.snd).getD
      (MempoolStore.new 0 10)
    let l2Store := ((MempoolGuard.run (MempoolStore.new 0 10) l2Calls).map Prod.snd).getD
      (MempoolStore.new 0 10)
    (Reachable l1Store ∧ l1Store.hasNext ⟨0, 0⟩ = true ∧
      (l1Store.hasNext ⟨0, 0⟩ = true ↔
        ∃ handedOut store, l1Store.nextTransaction ⟨0, 0⟩ = some (some handedOut, store))) ∧
    (Reachable l2Store ∧ l2Store.hasNext ⟨0, 0⟩ = true ∧
      (l2Store.hasNext ⟨0, 0⟩ = true ↔
        ∃ handedOut store, l2Store.nextTransaction ⟨0, 0⟩ = some (some handedOut, store))) := by
  intro l1Calls l2Calls l1Store l2Store
  have l1Reachable : Reachable l1Store := ⟨0, 10, l1Calls, [.insert], by decide, rfl⟩
  have l2Reachable : Reachable l2Store := ⟨0, 10, l2Calls, [.insert], by decide, rfl⟩
  exact ⟨⟨l1Reachable, by decide, hasNext_iff_nextTransaction_hands_out _ l1Reachable ⟨0, 0⟩⟩,
    ⟨l2Reachable, by decide, hasNext_iff_nextTransaction_hands_out _ l2Reachable ⟨0, 0⟩⟩⟩

/-- Over capacity, `get_mempool_info` on a reachable store hands over the stashed accounts and
keeps the `n` best-scored accounts: at least one if there is any, whose transactions fit in the
capacity unless it is the best account alone, and no fewer than fit, since the next best account
would not. The kept accounts keep all their transactions, the queue keeps the `n` best scores,
every account of the store is kept or reported purged exactly once, and the store stays
indexed. -/
theorem getMempoolInfo_keeps_best_accounts_that_fit (self : MempoolStore) (reachable : Reachable self)
    (overCapacity : self.capacity < self.size) :
    self.getMempoolInfo.1.stashedAccounts = self.stashedAccounts ∧
      self.getMempoolInfo.2.stashedAccounts = [] ∧
      ∃ n, n ≤ self.l2PriorityQueue.length ∧ (self.l2PriorityQueue ≠ [] → 0 < n) ∧
        self.getMempoolInfo.2.l2PriorityQueue.Perm (self.l2PriorityQueue.reverse.take n) ∧
        self.getMempoolInfo.2.l2TransactionsPerAccount.keys.Perm
          ((self.l2PriorityQueue.reverse.take n).map (·.account)) ∧
        (∀ account txs, self.getMempoolInfo.2.l2TransactionsPerAccount.lookup account = some txs →
          self.l2TransactionsPerAccount.lookup account = some txs) ∧
        (self.getMempoolInfo.1.purgedAccounts ++ self.getMempoolInfo.2.l2TransactionsPerAccount.keys).Perm
          self.l2TransactionsPerAccount.keys ∧
        (self.getMempoolInfo.2.size ≤ self.capacity ∨ n = 1) ∧
        (∀ next, self.l2PriorityQueue.reverse[n]? = some next → ∃ txs,
          self.l2TransactionsPerAccount.lookup next.account = some txs ∧
            self.capacity < self.getMempoolInfo.2.size + txs.len) ∧
        self.getMempoolInfo.2.Indexed := by
  have indexed := reachable.indexed
  have taken : ({ self with stashedAccounts := [] } : MempoolStore).Indexed :=
    ⟨indexed.sorted, indexed.consistent, indexed.owned, indexed.size_eq⟩
  obtain ⟨_, stashedTaken, _⟩ := indexed.getMempoolInfo
  exact ⟨rfl, stashedTaken, taken.gc overCapacity⟩

theorem getMempoolInfo_keeps_best_accounts_that_fit_over :
    let calls : List Call := [.insert [(l2Transaction 1 0 0, default), (l2Transaction 2 0 1, default),
      (l2Transaction 2 1 2, default)] ∅]
    let store := ((MempoolGuard.run (MempoolStore.new 0 1) calls).map Prod.snd).getD (MempoolStore.new 0 1)
    Reachable store ∧ store.capacity < store.size ∧
      store.getMempoolInfo.1.stashedAccounts = store.stashedAccounts ∧
      store.getMempoolInfo.2.stashedAccounts = [] ∧
      ∃ n, n ≤ store.l2PriorityQueue.length ∧ (store.l2PriorityQueue ≠ [] → 0 < n) ∧
        store.getMempoolInfo.2.l2PriorityQueue.Perm (store.l2PriorityQueue.reverse.take n) ∧
        store.getMempoolInfo.2.l2TransactionsPerAccount.keys.Perm
          ((store.l2PriorityQueue.reverse.take n).map (·.account)) ∧
        (∀ account txs, store.getMempoolInfo.2.l2TransactionsPerAccount.lookup account = some txs →
          store.l2TransactionsPerAccount.lookup account = some txs) ∧
        (store.getMempoolInfo.1.purgedAccounts ++ store.getMempoolInfo.2.l2TransactionsPerAccount.keys).Perm
          store.l2TransactionsPerAccount.keys ∧
        (store.getMempoolInfo.2.size ≤ store.capacity ∨ n = 1) ∧
        (∀ next, store.l2PriorityQueue.reverse[n]? = some next → ∃ txs,
          store.l2TransactionsPerAccount.lookup next.account = some txs ∧
            store.capacity < store.getMempoolInfo.2.size + txs.len) ∧
        store.getMempoolInfo.2.Indexed := by
  intro calls store
  have reachable : Reachable store := ⟨0, 1, calls, [.insert], by decide, rfl⟩
  have overCapacity : store.capacity < store.size := by decide
  exact ⟨reachable, overCapacity, getMempoolInfo_keeps_best_accounts_that_fit store reachable overCapacity⟩

end ZksyncEra.Mempool
