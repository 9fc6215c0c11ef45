import ZksyncEra.Mempool.Spec.Invariant

/-!
`next_transaction` on an indexed store.

With no L1 transaction due, the store takes the best-scored pointer of the queue that passes the
fee filter, splits it off the queue with every pointer scored better, stashes the accounts of
those (none of which passes the filter) and hands out the transaction at the nonce of the
pointer's account, whose next score goes back into the queue. On an indexed store each pointer
names an account that holds the transaction of its score, and the store's size covers the
transactions of the stashed accounts, so none of the three panics of the source can fire, and the
store stays indexed.

`has_next` answers whether `next_transaction` hands out a transaction.
-/

namespace ZksyncEra.Mempool

open MempoolStore AccountTransactions

/-! ### The stash loop -/

/-- The stash loop over pointers that are current scores of the map drops their accounts, stashes
their addresses and counts their transactions. -/
theorem stash_spec (self : MempoolStore) (removed : Nat) {pointers others : List MempoolScore}
    (owned : Owned self.l2TransactionsPerAccount)
    (scores : (scoresOf self.l2TransactionsPerAccount).Perm (pointers ++ others)) :
    ∃ accounts removed', self.stash removed pointers =
        some ({ self with
          l2TransactionsPerAccount := accounts
          stashedAccounts := self.stashedAccounts ++ pointers.map (·.account) }, removed') ∧
      (∀ account txs, accounts.lookup account = some txs →
        self.l2TransactionsPerAccount.lookup account = some txs) ∧
      (∀ pointer ∈ pointers, accounts.lookup pointer.account = none) ∧
      (scoresOf accounts).Perm others ∧
      removed' + txCount accounts = removed + txCount self.l2TransactionsPerAccount := by
  induction pointers generalizing self removed with
  | nil =>
    refine ⟨self.l2TransactionsPerAccount, removed, ?_, fun _ _ found => found,
      fun _ member => (by cases member), scores, rfl⟩
    simp [stash]
  | cons pointer rest ih =>
    -- the pointer is the current score of its account, which splits off the map
    have member : pointer ∈ scoresOf self.l2TransactionsPerAccount :=
      scores.symm.subset List.mem_cons_self
    obtain ⟨txs, entry, found, atNonce, scored⟩ := owned.exists_of_mem_scoresOf member
    have split := Splits.of_lookup owned found
    have splitScores := split.scores
    rw [currentScore_of_lookup atNonce, scored] at splitScores
    have others : (scoresOf (self.l2TransactionsPerAccount.erase pointer.account)).Perm (rest ++ others) :=
      (splitScores.symm.trans scores).cons_inv
    obtain ⟨accounts, removed', run, within, dropped, perm, count⟩ :=
      ih { self with
        l2TransactionsPerAccount := self.l2TransactionsPerAccount.erase pointer.account
        stashedAccounts := self.stashedAccounts ++ [pointer.account] }
        (removed + txs.len) (owned.erase _) others
    have withinErased : ∀ account found, accounts.lookup account = some found →
        account ≠ pointer.account ∧ self.l2TransactionsPerAccount.lookup account = some found := by
      intro account found' lookedUp
      have erased := within account found' lookedUp
      have other : account ≠ pointer.account := by
        rintro rfl
        rw [AList.lookup_erase] at erased
        cases erased
      exact ⟨other, by rwa [AList.lookup_erase_ne other] at erased⟩
    refine ⟨accounts, removed', ?_, fun account found' lookedUp => (withinErased account found' lookedUp).2,
      ?_, perm, ?_⟩
    · rw [stash, found]
      change stash _ (removed + txs.len) rest = _
      rw [run]
      simp
    · intro stashed inPointers
      rcases List.mem_cons.mp inPointers with rfl | later
      · cases lookedUp : accounts.lookup stashed.account with
        | none => rfl
        | some found' => exact absurd rfl (withinErased _ found' lookedUp).1
      · exact dropped stashed later
    · have count : removed' + txCount accounts =
          removed + txs.len + txCount (self.l2TransactionsPerAccount.erase pointer.account) := count
      rw [split.count]
      omega

/-! ### Handing out an L2 transaction -/

/-- With no L1 transaction due and a pointer that passes the filter, `next_transaction` splits the
queue at the pointer, stashes the accounts scored above it, hands out the transaction at the nonce
of the pointer's account and puts the account's next score back. -/
theorem MempoolStore.Indexed.nextTransaction_of_pointer {self : MempoolStore} (indexed : self.Indexed)
    {filter : L2TxFilter} (noL1 : self.l1Transactions.lookup self.nextPriorityId = none)
    {pointer : MempoolScore}
    (found : OrdList.rfind (·.matchesFilter filter) self.l2PriorityQueue = some pointer) :
    ∃ txs entry store,
      self.l2TransactionsPerAccount.lookup pointer.account = some txs ∧
      txs.transactions.lookup txs.nonce = some entry ∧
      scoreForTransaction entry.1 = pointer ∧
      self.nextTransaction filter = some (some (entry.1.toTransaction, entry.2), store) ∧
      store.stashedAccounts = self.stashedAccounts ++
        (self.l2PriorityQueue.filter fun score => MempoolScore.cmp pointer score == .lt).map (·.account) ∧
      (∀ score ∈ self.l2PriorityQueue, MempoolScore.cmp pointer score = .lt →
        store.l2TransactionsPerAccount.lookup score.account = none) ∧
      store.Indexed := by
  -- the queue splits at the pointer into the scores below it, which stay, and those above it
  have member : pointer ∈ self.l2PriorityQueue := by
    obtain ⟨_, l₁, l₂, queue, _⟩ := OrdList.rfind_eq_some found
    rw [queue]
    exact List.mem_append_right l₁ List.mem_cons_self
  obtain ⟨below, above, queue, lower, higher⟩ := indexed.sorted.split member
  have splitOff : OrdList.splitOff MempoolScore.cmp pointer self.l2PriorityQueue = (below, pointer :: above) := by
    rw [queue]
    exact OrdList.splitOff_of_split lower higher
  have scores : (scoresOf self.l2TransactionsPerAccount).Perm (above ++ pointer :: below) := by
    refine indexed.consistent.symm.trans ?_
    rw [queue]
    exact List.perm_append_comm.trans List.perm_middle.symm
  -- the accounts above are stashed
  obtain ⟨accounts, removed, run, within, dropped, perm, count⟩ :=
    stash_spec { self with l2PriorityQueue := below } 0 indexed.owned scores
  have owned : Owned accounts := fun account txs lookedUp => indexed.owned account txs (within account txs lookedUp)
  -- the pointer's account is left, and holds the transaction of the pointer at its nonce
  obtain ⟨txs, entry, lookedUp, atNonce, scored⟩ := owned.exists_of_mem_scoresOf (perm.symm.subset List.mem_cons_self)
  have split := Splits.of_lookup owned lookedUp
  have splitScores := split.scores
  rw [currentScore_of_lookup atNonce, scored] at splitScores
  have rest : (scoresOf (accounts.erase pointer.account)).Perm below := (splitScores.symm.trans perm).cons_inv
  have count : removed + txCount accounts = txCount self.l2TransactionsPerAccount := by
    simpa using count
  -- the account once `next` has handed out its transaction
  set advanced : AccountTransactions :=
    { txs with transactions := txs.transactions.erase txs.nonce, nonce := txs.nonce + 1 }
  have shrunk : advanced.len + 1 = txs.len := len_next atNonce
  have fits : removed + 1 ≤ self.size := by
    rw [indexed.size_eq, ← count, split.count]
    omega
  -- the store that `next_transaction` returns, read off the source
  have step : ∃ store, self.nextTransaction filter = some (some (entry.1.toTransaction, entry.2), store) ∧
      store.stashedAccounts = self.stashedAccounts ++ above.map (·.account) ∧
      store.l2TransactionsPerAccount = accounts.insert pointer.account advanced ∧
      store.l2PriorityQueue =
        advanced.currentScore.elim below (fun score => OrdList.insert MempoolScore.cmp score below) ∧
      store.size = self.size - (removed + 1) := by
    unfold nextTransaction
    rw [noL1]
    dsimp only
    rw [found]
    dsimp only
    rw [splitOff]
    dsimp only
    rw [show (pointer :: above).drop 1 = above from rfl, run]
    simp only [Option.bind_eq_bind, Option.bind_some, lookedUp, next_of_lookup atNonce, if_pos fits]
    refine ⟨_, rfl, rfl, rfl, ?_, rfl⟩
    cases advanced.currentScore <;> rfl
  obtain ⟨store, returned, stashed, mapped, queued, sized⟩ := step
  refine ⟨txs, entry, store, within _ _ lookedUp, atNonce, scored, returned, ?_, ?_, ?_⟩
  · rw [stashed, queue, OrdList.filter_above_of_split lower higher]
  · intro score inQueue higher'
    have inAbove : score ∈ above := by
      rw [queue] at inQueue
      rcases List.mem_append.mp inQueue with early | middle
      · rw [Std.OrientedCmp.gt_iff_lt.mpr (lower score early)] at higher'
        cases higher'
      · rcases List.mem_cons.mp middle with rfl | later
        · rw [(OrdList.cmp_self score : MempoolScore.cmp score score = .eq)] at higher'
          cases higher'
        · exact later
    have gone := dropped score inAbove
    have other : score.account ≠ pointer.account := by
      intro same
      rw [same, lookedUp] at gone
      cases gone
    rw [mapped, AList.lookup_insert_ne other]
    exact gone
  · have initiated : advanced.InitiatedBy pointer.account := split.initiated.next
    have sortedBelow : OrdList.Sorted MempoolScore.cmp below := by
      have sorted := indexed.sorted
      rw [queue] at sorted
      exact sorted.sublist (List.sublist_append_left below _)
    have storeSize : store.size = advanced.len + txCount (accounts.erase pointer.account) := by
      rw [sized, indexed.size_eq, ← count, split.count]
      omega
    cases successor : advanced.currentScore with
    | none =>
      rw [successor] at queued
      refine indexed_put owned initiated mapped (queued ▸ sortedBelow) ?_ storeSize
      rw [queued, successor]
      exact rest.symm
    | some score =>
      rw [successor] at queued
      have fresh : ∀ other ∈ below, MempoolScore.cmp score other ≠ .eq := fun other inBelow =>
        owned.unequal_of_erase (initiated.account_of_currentScore successor) (rest.symm.subset inBelow)
      refine indexed_put owned initiated mapped (queued ▸ sortedBelow.insert) ?_ storeSize
      rw [queued, successor]
      exact (OrdList.insert_perm fresh).trans (rest.symm.cons score)

/-! ### Every call of `next_transaction` -/

/-- An L1 transaction due goes first; the L2 side of the store is left as it is. -/
theorem MempoolStore.Indexed.nextTransaction_of_l1 {self : MempoolStore} (indexed : self.Indexed)
    (filter : L2TxFilter) {transaction : L1Tx}
    (due : self.l1Transactions.lookup self.nextPriorityId = some transaction) :
    ∃ store, self.nextTransaction filter = some (some (transaction.toTransaction, default), store) ∧
      store.Indexed := by
  unfold nextTransaction
  rw [due]
  exact ⟨_, rfl, indexed.sorted, indexed.consistent, indexed.owned, indexed.size_eq⟩

/-- With nothing due and no pointer passing the filter, `next_transaction` returns nothing and
leaves the store as it is. -/
theorem nextTransaction_of_no_match {self : MempoolStore} {filter : L2TxFilter}
    (noL1 : self.l1Transactions.lookup self.nextPriorityId = none)
    (noMatch : OrdList.rfind (·.matchesFilter filter) self.l2PriorityQueue = none) :
    self.nextTransaction filter = some (none, self) := by
  unfold nextTransaction
  rw [noL1]
  dsimp only
  rw [noMatch]

/-- On an indexed store `next_transaction` never panics, hands out a transaction exactly when
`has_next` says there is one, and keeps the store indexed. -/
theorem MempoolStore.Indexed.nextTransaction {self : MempoolStore} (indexed : self.Indexed)
    (filter : L2TxFilter) :
    ∃ result store, self.nextTransaction filter = some (result, store) ∧
      result.isSome = self.hasNext filter ∧ store.Indexed := by
  cases due : self.l1Transactions.lookup self.nextPriorityId with
  | some transaction =>
    obtain ⟨store, returned, kept⟩ := indexed.nextTransaction_of_l1 filter due
    exact ⟨_, store, returned, by simp [hasNext, due], kept⟩
  | none =>
    cases found : OrdList.rfind (·.matchesFilter filter) self.l2PriorityQueue with
    | none =>
      exact ⟨none, self, nextTransaction_of_no_match due found, by simp [hasNext, due, found], indexed⟩
    | some pointer =>
      obtain ⟨_, entry, store, _, _, _, returned, _, _, kept⟩ := indexed.nextTransaction_of_pointer due found
      exact ⟨_, store, returned, by simp [hasNext, found], kept⟩

end ZksyncEra.Mempool
