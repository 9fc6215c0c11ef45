import ZksyncEra.Lib.AssocLists
import ZksyncEra.Lib.Lists
import ZksyncEra.Mempool.Spec.Index

/-!
What the mempool store keeps over every call but `rollback`.

The store is indexed when its priority queue is strictly ordered and holds exactly the current
scores of the accounts, every account holds only transactions it initiated, and `size` counts the
transactions of the accounts. Inserting, handing out and collecting garbage keep the store indexed,
and on an indexed store neither `next_transaction` nor `gc` can hit one of their panics: a pointer
always names an account that holds the transaction at its nonce, and the size never goes below
the transactions handed out and stashed.

The order of scores is a lawful comparison, later receipt first and then the account, so the
queue behaves as the set it models (`Lib.OrdList`).
-/

namespace ZksyncEra.Mempool

open MempoolStore

/-! ### The order of scores -/

namespace MempoolScore

theorem cmp_eq_then (a b : MempoolScore) :
    cmp a b = (compare b.receivedAtMs a.receivedAtMs).then (compare a.account.toNat b.account.toNat) := by
  unfold cmp
  rw [Nat.compare_swap]
  cases compare b.receivedAtMs a.receivedAtMs <;> rfl

instance : Std.OrientedCmp cmp where
  eq_swap {a b} := by
    rw [cmp_eq_then, cmp_eq_then, Ordering.swap_then, Nat.compare_swap, Nat.compare_swap]

instance : Std.TransCmp cmp where
  isLE_trans {a b c} ab bc := by
    rw [cmp_eq_then, Ordering.isLE_then_iff_and, Nat.isLE_compare, Nat.compare_eq_lt,
      Nat.isLE_compare] at *
    omega

/-- Scores compare equal only within one account. -/
theorem account_eq_of_cmp_eq {a b : MempoolScore} (same : cmp a b = .eq) : a.account = b.account := by
  rw [cmp_eq_then, Ordering.then_eq_eq, Nat.compare_eq_eq, Nat.compare_eq_eq] at same
  exact BitVec.eq_of_toNat_eq same.2

end MempoolScore

/-! ### Accounts as a map -/

/-- The current scores of the accounts of a map. -/
def scoresOf (accounts : HashMap Address AccountTransactions) : List MempoolScore :=
  accounts.entries.filterMap (·.2.currentScore)

/-- The number of transactions the accounts of a map hold. -/
def txCount (accounts : HashMap Address AccountTransactions) : Nat :=
  (accounts.entries.map fun entry => entry.2.len).sum

/-- Every transaction an account holds was initiated by `account`. -/
def AccountTransactions.InitiatedBy (txs : AccountTransactions) (account : Address) : Prop :=
  ∀ nonce entry, txs.transactions.lookup nonce = some entry → entry.1.initiatorAccount = account

/-- Every account holds only the transactions it initiated. -/
def Owned (accounts : HashMap Address AccountTransactions) : Prop :=
  ∀ account txs, accounts.lookup account = some txs → txs.InitiatedBy account

@[simp] theorem currentScores_eq (self : MempoolStore) :
    self.currentScores = scoresOf self.l2TransactionsPerAccount := rfl

theorem scoresOf_insert (accounts : HashMap Address AccountTransactions) (account : Address)
    (txs : AccountTransactions) :
    scoresOf (accounts.insert account txs) = txs.currentScore.toList ++ scoresOf (accounts.erase account) := by
  cases score : txs.currentScore <;> simp [scoresOf, AList.entries_insert, score] <;> rfl

theorem txCount_insert (accounts : HashMap Address AccountTransactions) (account : Address)
    (txs : AccountTransactions) :
    txCount (accounts.insert account txs) = txs.len + txCount (accounts.erase account) := by
  simp [txCount, AList.entries_insert]
  rfl

/-- An account of a map splits off its current score. -/
theorem scoresOf_perm_erase {accounts : HashMap Address AccountTransactions} {account : Address}
    {txs : AccountTransactions} (found : accounts.lookup account = some txs) :
    (scoresOf accounts).Perm (txs.currentScore.toList ++ scoresOf (accounts.erase account)) := by
  have split := (AList.entries_perm_erase found).filterMap fun entry => entry.2.currentScore
  cases score : txs.currentScore <;> simpa [scoresOf, score] using split

/-- An account of a map splits off its transactions. -/
theorem txCount_eq_erase {accounts : HashMap Address AccountTransactions} {account : Address}
    {txs : AccountTransactions} (found : accounts.lookup account = some txs) :
    txCount accounts = txs.len + txCount (accounts.erase account) := by
  have split := ((AList.entries_perm_erase found).map fun entry => entry.2.len).sum_eq
  simpa [txCount] using split

theorem Owned.erase {accounts : HashMap Address AccountTransactions} (owned : Owned accounts)
    (account : Address) : Owned (accounts.erase account) := by
  intro other txs found
  by_cases same : other = account
  · rw [same, AList.lookup_erase] at found
    cases found
  · rw [AList.lookup_erase_ne same] at found
    exact owned other txs found

/-- A current score of an owned map names an account that holds the transaction of that score at
its nonce. -/
theorem Owned.exists_of_mem_scoresOf {accounts : HashMap Address AccountTransactions}
    (owned : Owned accounts) {score : MempoolScore} (member : score ∈ scoresOf accounts) :
    ∃ txs entry, accounts.lookup score.account = some txs ∧
      txs.transactions.lookup txs.nonce = some entry ∧ AccountTransactions.scoreForTransaction entry.1 = score := by
  obtain ⟨⟨account, txs⟩, inMap, current⟩ := List.mem_filterMap.mp member
  obtain ⟨entry, atNonce, scored⟩ := Option.map_eq_some_iff.mp current
  have found : accounts.lookup account = some txs := AList.mem_lookup_iff.mpr inMap
  have sameAccount : score.account = account := by
    rw [← scored]
    exact owned account txs found txs.nonce entry atNonce
  exact ⟨txs, entry, sameAccount ▸ found, atNonce, scored⟩

/-- Scores of distinct accounts of a map never compare equal. -/
theorem Owned.unequal_of_erase {accounts : HashMap Address AccountTransactions}
    (owned : Owned accounts) {account : Address} {score other : MempoolScore}
    (scoreAccount : score.account = account) (member : other ∈ scoresOf (accounts.erase account)) :
    MempoolScore.cmp score other ≠ .eq := by
  intro same
  obtain ⟨_, _, found, _⟩ := (owned.erase account).exists_of_mem_scoresOf member
  rw [← MempoolScore.account_eq_of_cmp_eq same, scoreAccount, AList.lookup_erase] at found
  cases found

/-! ### An account's transactions -/

namespace AccountTransactions

theorem currentScore_of_lookup {txs : AccountTransactions}
    {entry : L2Tx × TransactionTimeRangeConstraint} (atNonce : txs.transactions.lookup txs.nonce = some entry) :
    txs.currentScore = some (scoreForTransaction entry.1) := by
  simp [currentScore, atNonce]

theorem InitiatedBy.account_of_currentScore {txs : AccountTransactions} {account : Address}
    (initiated : txs.InitiatedBy account) {score : MempoolScore} (current : txs.currentScore = some score) :
    score.account = account := by
  obtain ⟨entry, atNonce, rfl⟩ := Option.map_eq_some_iff.mp current
  exact initiated txs.nonce entry atNonce

section Insert

variable (txs : AccountTransactions) (transaction : L2Tx) (constraint : TransactionTimeRangeConstraint)

/-- The account after a transaction is put at its nonce. -/
theorem len_put (nonce : Nat) (entry : L2Tx × TransactionTimeRangeConstraint) :
    { txs with transactions := txs.transactions.insert nonce entry }.len =
      txs.len + if (txs.transactions.lookup nonce).isNone then 1 else 0 :=
  AList.length_insert _ _ _

theorem insert_of_lt (old : transaction.commonData.nonce < txs.nonce) :
    txs.insert transaction constraint = (default, txs) :=
  if_pos old

theorem insert_of_eq (atNonce : transaction.commonData.nonce = txs.nonce) :
    txs.insert transaction constraint =
      (⟨some (scoreForTransaction transaction), txs.currentScore, txs.currentScore.isNone⟩,
        { txs with transactions := txs.transactions.insert txs.nonce (transaction, constraint) }) := by
  unfold insert
  rw [atNonce]
  simp [currentScore]

theorem insert_of_gt (above : txs.nonce < transaction.commonData.nonce) :
    txs.insert transaction constraint =
      (⟨none, none, (txs.transactions.lookup transaction.commonData.nonce).isNone⟩,
        { txs with
          transactions := txs.transactions.insert transaction.commonData.nonce (transaction, constraint) }) := by
  simp [insert, Nat.not_lt.mpr above.le, Nat.ne_of_gt above]

/-- An insertion adds one transaction exactly when it reports a new one. -/
theorem insert_len :
    (txs.insert transaction constraint).2.len =
      txs.len + if (txs.insert transaction constraint).1.isNew then 1 else 0 := by
  rcases Nat.lt_trichotomy transaction.commonData.nonce txs.nonce with old | atNonce | above
  · simp [insert_of_lt txs transaction constraint old, default]
  · rw [insert_of_eq txs transaction constraint atNonce, len_put]
    simp [currentScore]
  · rw [insert_of_gt txs transaction constraint above, len_put]

/-- The account's current score after an insertion is the new score it reports, if any. -/
theorem insert_currentScore :
    (txs.insert transaction constraint).2.currentScore =
      (txs.insert transaction constraint).1.newScore.or txs.currentScore := by
  rcases Nat.lt_trichotomy transaction.commonData.nonce txs.nonce with old | atNonce | above
  · simp [insert_of_lt txs transaction constraint old, default]
  · rw [insert_of_eq txs transaction constraint atNonce]
    simp [currentScore]
  · rw [insert_of_gt txs transaction constraint above]
    simp [currentScore, AList.lookup_insert_ne (Nat.ne_of_lt above)]

/-- An insertion that reports a new score replaces the account's current score. -/
theorem insert_previousScore :
    (txs.insert transaction constraint).1.previousScore =
      (txs.insert transaction constraint).1.newScore.bind fun _ => txs.currentScore := by
  rcases Nat.lt_trichotomy transaction.commonData.nonce txs.nonce with old | atNonce | above
  · simp [insert_of_lt txs transaction constraint old, default]
  · simp [insert_of_eq txs transaction constraint atNonce]
  · simp [insert_of_gt txs transaction constraint above]

theorem insert_newScore {score : MempoolScore}
    (reported : (txs.insert transaction constraint).1.newScore = some score) :
    score = scoreForTransaction transaction := by
  rcases Nat.lt_trichotomy transaction.commonData.nonce txs.nonce with old | atNonce | above
  · simp [insert_of_lt txs transaction constraint old, default] at reported
  · simp only [insert_of_eq txs transaction constraint atNonce, Option.some.injEq] at reported
    exact reported.symm
  · simp [insert_of_gt txs transaction constraint above] at reported

theorem InitiatedBy.insert {account : Address} (initiated : txs.InitiatedBy account)
    (initiator : transaction.initiatorAccount = account) :
    (txs.insert transaction constraint).2.InitiatedBy account := by
  by_cases old : transaction.commonData.nonce < txs.nonce
  · rw [insert_of_lt txs transaction constraint old]
    exact initiated
  · have put : (txs.insert transaction constraint).2 = { txs with
          transactions := txs.transactions.insert transaction.commonData.nonce (transaction, constraint) } := by
      rcases Nat.lt_or_eq_of_le (Nat.not_lt.mp old) with above | atNonce
      · rw [insert_of_gt txs transaction constraint above]
      · rw [insert_of_eq txs transaction constraint atNonce.symm, atNonce]
    intro nonce entry found
    rw [put] at found
    by_cases same : nonce = transaction.commonData.nonce
    · rw [same, AList.lookup_insert] at found
      cases found
      exact initiator
    · rw [AList.lookup_insert_ne same] at found
      exact initiated nonce entry found

end Insert

/-- `next` hands out the transaction at the account's nonce and moves the nonce past it. -/
theorem next_of_lookup {txs : AccountTransactions} {entry : L2Tx × TransactionTimeRangeConstraint}
    (atNonce : txs.transactions.lookup txs.nonce = some entry) :
    txs.next = some ((entry.1, entry.2,
      { txs with transactions := txs.transactions.erase txs.nonce, nonce := txs.nonce + 1 }.currentScore),
      { txs with transactions := txs.transactions.erase txs.nonce, nonce := txs.nonce + 1 }) := by
  simp [next, atNonce, currentScore]

theorem len_next {txs : AccountTransactions} {entry : L2Tx × TransactionTimeRangeConstraint}
    (atNonce : txs.transactions.lookup txs.nonce = some entry) :
    { txs with transactions := txs.transactions.erase txs.nonce, nonce := txs.nonce + 1 }.len + 1 = txs.len :=
  (AList.length_of_lookup_eq_some atNonce).symm

theorem InitiatedBy.next {txs : AccountTransactions} {account : Address} (initiated : txs.InitiatedBy account) :
    { txs with transactions := txs.transactions.erase txs.nonce, nonce := txs.nonce + 1 }.InitiatedBy account := by
  intro nonce entry found
  by_cases same : nonce = txs.nonce
  · rw [same] at found
    rw [AList.lookup_erase] at found
    cases found
  · exact initiated nonce entry (by rwa [AList.lookup_erase_ne same] at found)

end AccountTransactions

open AccountTransactions

/-! ### One account split off the map -/

/-- An account's transactions, `txs`, beside the rest of the map: its score and its transactions
are those the map counts for it, and it holds only transactions it initiated. -/
structure Splits (accounts : HashMap Address AccountTransactions) (account : Address)
    (txs : AccountTransactions) : Prop where
  scores : (scoresOf accounts).Perm (txs.currentScore.toList ++ scoresOf (accounts.erase account))
  count : txCount accounts = txs.len + txCount (accounts.erase account)
  initiated : txs.InitiatedBy account

theorem Splits.of_lookup {accounts : HashMap Address AccountTransactions} (owned : Owned accounts)
    {account : Address} {txs : AccountTransactions} (found : accounts.lookup account = some txs) :
    Splits accounts account txs :=
  ⟨scoresOf_perm_erase found, txCount_eq_erase found, owned account txs found⟩

/-- A new account splits off a map that does not hold it. -/
theorem Splits.of_absent {accounts : HashMap Address AccountTransactions} {account : Address}
    (absent : accounts.lookup account = none) (nonce : Nat) :
    Splits accounts account (AccountTransactions.new nonce) := by
  have empty : (AccountTransactions.new nonce).currentScore = none := rfl
  refine ⟨?_, ?_, fun _ _ found => by cases found⟩
  · rw [empty, AList.erase_of_lookup_eq_none absent]
    exact List.Perm.refl _
  · rw [AList.erase_of_lookup_eq_none absent]
    exact (Nat.zero_add _).symm

theorem Owned.insert {accounts : HashMap Address AccountTransactions} (owned : Owned accounts)
    {account : Address} {txs : AccountTransactions} (initiated : txs.InitiatedBy account) :
    Owned (accounts.insert account txs) := by
  intro other found lookedUp
  by_cases same : other = account
  · rw [same, AList.lookup_insert] at lookedUp
    cases lookedUp
    rw [same]
    exact initiated
  · rw [AList.lookup_insert_ne same] at lookedUp
    exact owned other found lookedUp

/-! ### The invariant -/

/-- The store is indexed: the queue is strictly ordered and holds exactly the current scores of the
accounts, every account holds only its own transactions, and `size` counts them. -/
structure MempoolStore.Indexed (store : MempoolStore) : Prop where
  sorted : OrdList.Sorted MempoolScore.cmp store.l2PriorityQueue
  consistent : store.IndexConsistent
  owned : Owned store.l2TransactionsPerAccount
  size_eq : store.size = txCount store.l2TransactionsPerAccount

theorem new_indexed (nextPriorityId capacity : Nat) : (MempoolStore.new nextPriorityId capacity).Indexed :=
  ⟨List.Pairwise.nil, List.Perm.nil, fun _ _ found => (by cases found), rfl⟩

/-- A store whose map is a map with an account's transactions put in, and whose queue holds the
account's current score beside the other accounts' scores, is indexed. -/
theorem indexed_put {store : MempoolStore} {accounts : HashMap Address AccountTransactions}
    (owned : Owned accounts) {account : Address} {txs : AccountTransactions}
    (initiated : txs.InitiatedBy account) (mapped : store.l2TransactionsPerAccount = accounts.insert account txs)
    (sorted : OrdList.Sorted MempoolScore.cmp store.l2PriorityQueue)
    (scores : store.l2PriorityQueue.Perm (txs.currentScore.toList ++ scoresOf (accounts.erase account)))
    (sized : store.size = txs.len + txCount (accounts.erase account)) :
    store.Indexed := by
  refine ⟨sorted, ?_, mapped ▸ owned.insert initiated, ?_⟩
  · change store.l2PriorityQueue.Perm (scoresOf store.l2TransactionsPerAccount)
    rw [mapped, scoresOf_insert]
    exact scores
  · rw [mapped, txCount_insert, sized]

/-! ### Insertion -/

/-- `insert_l2_transaction` with the account's transactions found or bootstrapped, and the queue's
two updates, written without the source's matches. -/
theorem insertL2Transaction_eq (self : MempoolStore) (transaction : L2Tx)
    (constraint : TransactionTimeRangeConstraint) (initialNonces : HashMap Address Nat) :
    self.insertL2Transaction transaction constraint initialNonces =
      let txs := (self.l2TransactionsPerAccount.lookup transaction.initiatorAccount).getD
        (AccountTransactions.new ((initialNonces.lookup transaction.initiatorAccount).getD 0))
      let inserted := txs.insert transaction constraint
      let queue := inserted.1.previousScore.elim self.l2PriorityQueue
        fun score => OrdList.erase MempoolScore.cmp score self.l2PriorityQueue
      { self with
        l2TransactionsPerAccount := self.l2TransactionsPerAccount.insert transaction.initiatorAccount inserted.2
        l2PriorityQueue := inserted.1.newScore.elim queue fun score => OrdList.insert MempoolScore.cmp score queue
        size := if inserted.1.isNew then self.size + 1 else self.size } := by
  unfold insertL2Transaction
  dsimp only
  split
  case h_1 txs found =>
    rw [found, Option.getD_some]
    generalize txs.insert transaction constraint = inserted
    obtain ⟨⟨newScore, previousScore, isNew⟩, txs⟩ := inserted
    cases newScore <;> cases previousScore <;> rfl
  case h_2 absent =>
    rw [absent, Option.getD_none]
    generalize AccountTransactions.insert _ transaction constraint = inserted
    obtain ⟨⟨newScore, previousScore, isNew⟩, txs⟩ := inserted
    cases newScore <;> cases previousScore <;> rfl

/-- `insert_l2_transaction` keeps the store indexed. The score it adds belongs to the account it
inserts into, so no other account's score compares equal to it, and the score it removes is the
account's current one. -/
theorem MempoolStore.Indexed.insertL2Transaction {self : MempoolStore} (indexed : self.Indexed) (transaction : L2Tx)
    (constraint : TransactionTimeRangeConstraint) (initialNonces : HashMap Address Nat) :
    (self.insertL2Transaction transaction constraint initialNonces).Indexed := by
  have split : Splits self.l2TransactionsPerAccount transaction.initiatorAccount
      ((self.l2TransactionsPerAccount.lookup transaction.initiatorAccount).getD
        (AccountTransactions.new ((initialNonces.lookup transaction.initiatorAccount).getD 0))) := by
    cases found : self.l2TransactionsPerAccount.lookup transaction.initiatorAccount with
    | none => exact Splits.of_absent found _
    | some txs => exact Splits.of_lookup indexed.owned found
  rw [insertL2Transaction_eq]
  dsimp only
  generalize (self.l2TransactionsPerAccount.lookup transaction.initiatorAccount).getD _ = txs at split ⊢
  have len := insert_len txs transaction constraint
  have current := insert_currentScore txs transaction constraint
  have previous := insert_previousScore txs transaction constraint
  have reported : ∀ score, (txs.insert transaction constraint).1.newScore = some score →
      score = scoreForTransaction transaction :=
    fun _ => insert_newScore txs transaction constraint
  have initiated := split.initiated.insert txs transaction constraint rfl
  generalize txs.insert transaction constraint = inserted at *
  obtain ⟨⟨newScore, previousScore, isNew⟩, inserted⟩ := inserted
  dsimp only at len current previous reported initiated ⊢
  -- the queue before holds the account's current score beside the other accounts' scores
  have queue := indexed.consistent.trans split.scores
  have sized : (if isNew then self.size + 1 else self.size) =
      inserted.len + txCount (self.l2TransactionsPerAccount.erase transaction.initiatorAccount) := by
    rw [len, indexed.size_eq, split.count]
    split_ifs <;> omega
  cases newScore with
  | none =>
    rw [Option.bind_none] at previous
    rw [previous]
    rw [Option.none_or] at current
    exact indexed_put indexed.owned initiated rfl indexed.sorted (current ▸ queue) sized
  | some score =>
    rw [Option.bind_some] at previous
    rw [previous]
    rw [Option.some_or] at current
    have fresh : ∀ other ∈ scoresOf (self.l2TransactionsPerAccount.erase transaction.initiatorAccount),
        MempoolScore.cmp score other ≠ .eq :=
      fun other member => indexed.owned.unequal_of_erase (by rw [reported score rfl]; rfl) member
    -- the queue without the account's previous score holds the other accounts' scores
    have rest : (txs.currentScore.elim self.l2PriorityQueue
        fun score => OrdList.erase MempoolScore.cmp score self.l2PriorityQueue).Perm
          (scoresOf (self.l2TransactionsPerAccount.erase transaction.initiatorAccount)) ∧
        OrdList.Sorted MempoolScore.cmp (txs.currentScore.elim self.l2PriorityQueue
          fun score => OrdList.erase MempoolScore.cmp score self.l2PriorityQueue) := by
      cases old : txs.currentScore with
      | none =>
        rw [old] at queue
        exact ⟨queue, indexed.sorted⟩
      | some previousScore =>
        rw [old] at queue
        exact ⟨indexed.sorted.erase_perm_of_perm queue, indexed.sorted.erase⟩
    refine indexed_put indexed.owned initiated rfl rest.2.insert ?_ sized
    rw [current]
    exact (OrdList.insert_perm fun other member => fresh other (rest.1.subset member)).trans
      (rest.1.cons score)

/-- One transaction of `insert` that is no protocol upgrade is taken, and keeps the store indexed. -/
theorem MempoolStore.Indexed.insertOne {self : MempoolStore} (indexed : self.Indexed)
    (initialNonces : HashMap Address Nat) (entry : Transaction × TransactionTimeRangeConstraint)
    (noUpgrade : ∀ sender, entry.1.commonData ≠ .protocolUpgrade sender) :
    ∃ store, self.insertOne initialNonces entry = some store ∧ store.Indexed := by
  obtain ⟨⟨commonData, receivedAt⟩, constraint⟩ := entry
  cases commonData with
  | l1 data =>
    exact ⟨_, rfl, indexed.sorted, indexed.consistent, indexed.owned, indexed.size_eq⟩
  | l2 data => exact ⟨_, rfl, indexed.insertL2Transaction _ constraint initialNonces⟩
  | protocolUpgrade sender => exact absurd rfl (noUpgrade sender)

/-- `insert` of a batch without protocol upgrades never panics and keeps the store indexed. -/
theorem MempoolStore.Indexed.insert {self : MempoolStore} (indexed : self.Indexed)
    (transactions : List (Transaction × TransactionTimeRangeConstraint)) (initialNonces : HashMap Address Nat)
    (noUpgrade : ∀ entry ∈ transactions, ∀ sender, entry.1.commonData ≠ .protocolUpgrade sender) :
    ∃ store, self.insert transactions initialNonces = some store ∧ store.Indexed :=
  List.foldlM_invariant MempoolStore.Indexed
    (fun _ entry member kept => kept.insertOne initialNonces entry (noUpgrade entry member)) self indexed

end ZksyncEra.Mempool
