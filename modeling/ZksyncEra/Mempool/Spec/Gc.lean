import ZksyncEra.Mempool.Spec.Invariant

/-!
`gc` on an indexed store over capacity.

The walk over the queue from the best score down takes, for every pointer, the account it points
at out of the map; on an indexed store each pointer finds its account, so the walk lists every
scored account in score order and leaves the accounts with no transaction at their nonce. The
count then keeps the longest run of best-scored accounts whose transactions fit in the capacity,
or the best one alone if even it does not fit. Every account is kept or purged, once, the kept
ones with all their transactions, and the store stays indexed.
-/

namespace ZksyncEra.Mempool

open MempoolStore AccountTransactions

/-- `collect()` of address-transactions pairs into a `HashMap`, as `gc` builds its new map. -/
def collectMap (entries : List (Address × AccountTransactions)) : HashMap Address AccountTransactions :=
  entries.foldl (fun map entry => map.insert entry.1 entry.2) ∅

/-- `gc` over capacity, with the source's destructuring written as projections. -/
theorem gc_of_over (self : MempoolStore) (overCapacity : self.capacity < self.size) :
    self.gc =
      let kept := (collectKept self.l2TransactionsPerAccount self.l2PriorityQueue.reverse).1
      let remaining := (collectKept self.l2TransactionsPerAccount self.l2PriorityQueue.reverse).2
      let counted := countKept self.capacity 0 0 kept
      let n := if counted = 0 ∧ kept ≠ [] then 1 else counted
      let accounts := collectMap (kept.take n)
      (remaining.keys ++ (kept.drop n).map (·.1),
        { self with
          l2PriorityQueue := OrdList.ofList MempoolScore.cmp (self.l2PriorityQueue.reverse.take n)
          l2TransactionsPerAccount := accounts
          size := txCount accounts }) := by
  unfold gc
  rw [if_pos overCapacity]
  rfl

/-! ### The walk over the queue -/

/-- An entry the walk takes for a pointer: the pointer's account with the transactions whose
current score the pointer is. -/
def TakenFor (pointer : MempoolScore) (entry : Address × AccountTransactions) : Prop :=
  entry.1 = pointer.account ∧ entry.2.currentScore = some pointer

theorem filterMap_currentScore_of_taken {pointers : List MempoolScore}
    {taken : List (Address × AccountTransactions)} (related : List.Forall₂ TakenFor pointers taken) :
    taken.filterMap (·.2.currentScore) = pointers := by
  induction related with
  | nil => rfl
  | cons head _ ih => simp only [List.filterMap_cons, head.2, ih]

theorem map_fst_of_taken {pointers : List MempoolScore}
    {taken : List (Address × AccountTransactions)} (related : List.Forall₂ TakenFor pointers taken) :
    taken.map (·.1) = pointers.map (·.account) := by
  induction related with
  | nil => rfl
  | cons head _ ih => rw [List.map_cons, List.map_cons, head.1, ih]

/-- The walk of `gc` over pointers that are current scores of the map takes each pointer's account
out of the map, in the order of the pointers, and leaves the map of the other scores. -/
theorem collectKept_spec {accounts : HashMap Address AccountTransactions} (owned : Owned accounts)
    {pointers others : List MempoolScore} (scores : (scoresOf accounts).Perm (pointers ++ others)) :
    List.Forall₂ TakenFor pointers (collectKept accounts pointers).1 ∧
      accounts.entries.Perm (((collectKept accounts pointers).1.map fun entry => Sigma.mk entry.1 entry.2) ++
        (collectKept accounts pointers).2.entries) ∧
      (scoresOf (collectKept accounts pointers).2).Perm others := by
  induction pointers generalizing accounts with
  | nil => exact ⟨.nil, List.Perm.refl _, scores⟩
  | cons pointer rest ih =>
    have member : pointer ∈ scoresOf accounts := scores.symm.subset List.mem_cons_self
    obtain ⟨txs, entry, found, atNonce, scored⟩ := owned.exists_of_mem_scoresOf member
    have current : txs.currentScore = some pointer := by rw [currentScore_of_lookup atNonce, scored]
    have splitScores := (Splits.of_lookup owned found).scores
    rw [current] at splitScores
    obtain ⟨related, entries, remaining⟩ :=
      ih (owned.erase pointer.account) (splitScores.symm.trans scores).cons_inv
    have step : collectKept accounts (pointer :: rest) =
        ((pointer.account, txs) :: (collectKept (accounts.erase pointer.account) rest).1,
          (collectKept (accounts.erase pointer.account) rest).2) := by
      rw [collectKept, found]
    rw [step]
    exact ⟨.cons ⟨rfl, current⟩ related, (AList.entries_perm_erase found).trans (entries.cons _), remaining⟩

/-! ### The count of accounts that fit -/

/-- The count of `gc` from a sum within the capacity stops at the longest run of accounts whose
transactions still fit. -/
theorem countKept_spec (capacity : Nat) (accounts : List (Address × AccountTransactions)) :
    ∀ sum kept, sum ≤ capacity →
      ∃ n, countKept capacity sum kept accounts = kept + n ∧ n ≤ accounts.length ∧
        sum + ((accounts.take n).map (·.2.len)).sum ≤ capacity ∧
        (n < accounts.length → capacity < sum + ((accounts.take (n + 1)).map (·.2.len)).sum) := by
  induction accounts with
  | nil =>
    intro sum kept within
    exact ⟨0, rfl, Nat.le_refl 0, by simpa using within, fun empty => absurd empty (Nat.not_lt_zero 0)⟩
  | cons entry rest ih =>
    intro sum kept within
    obtain ⟨account, txs⟩ := entry
    by_cases fits : sum + txs.len ≤ capacity
    · obtain ⟨n, counted, bounded, fitting, maximal⟩ := ih (sum + txs.len) (kept + 1) fits
      refine ⟨n + 1, ?_, by simpa using bounded, ?_, fun longer => ?_⟩
      · rw [countKept, if_pos fits, counted]
        omega
      · simp only [List.take_succ_cons, List.map_cons, List.sum_cons]
        omega
      · have next := maximal (by simpa using longer)
        simp only [List.take_succ_cons, List.map_cons, List.sum_cons]
        omega
    · refine ⟨0, ?_, Nat.zero_le _, by simpa using within, fun _ => ?_⟩
      · rw [countKept, if_neg fits]
        rfl
      · simp only [List.take_succ_cons, List.take_zero, List.map_cons, List.map_nil, List.sum_cons,
          List.sum_nil]
        omega

/-- How many accounts `gc` keeps: the longest run that fits, or the best account alone when not
even it fits. The kept accounts fit unless there is one, and the next account would not fit. -/
theorem numberKept_spec (capacity : Nat) (kept : List (Address × AccountTransactions)) :
    let counted := countKept capacity 0 0 kept
    let n := if counted = 0 ∧ kept ≠ [] then 1 else counted
    n ≤ kept.length ∧ (kept ≠ [] → 0 < n) ∧
      (((kept.take n).map (·.2.len)).sum ≤ capacity ∨ n = 1) ∧
      ∀ entry, kept[n]? = some entry → capacity < ((kept.take n).map (·.2.len)).sum + entry.2.len := by
  intro counted n
  obtain ⟨m, countEq, bounded, fitting, maximal⟩ := countKept_spec capacity kept 0 0 (Nat.zero_le _)
  have sameCount : counted = m := by simpa using countEq
  -- the sum up to the next account is the sum of the kept ones and the next one's
  have nextSum : ∀ k entry, kept[k]? = some entry →
      ((kept.take (k + 1)).map (·.2.len)).sum = ((kept.take k).map (·.2.len)).sum + entry.2.len := by
    intro k entry found
    rw [List.take_add_one, found]
    simp
  by_cases forced : counted = 0 ∧ kept ≠ []
  · have one : n = 1 := if_pos forced
    have nonempty : 0 < kept.length := List.length_pos_iff.mpr forced.2
    -- not even the best account fits
    have tooBig := maximal (by omega)
    rw [← sameCount, forced.1, Nat.zero_add, Nat.zero_add] at tooBig
    refine ⟨by omega, fun _ => by omega, .inr one, fun entry _ => ?_⟩
    rw [one]
    omega
  · have same : n = m := (if_neg forced).trans sameCount
    refine ⟨same ▸ bounded, fun nonempty => ?_, .inl (by simpa [same] using fitting), fun entry found => ?_⟩
    · rw [same, ← sameCount]
      exact Nat.pos_of_ne_zero fun zero => forced ⟨zero, nonempty⟩
    · rw [same] at found ⊢
      have longer : m < kept.length := (List.getElem?_eq_some_iff.mp found).1
      have overflow := maximal longer
      rw [nextSum m entry found] at overflow
      omega

/-! ### The map of the kept accounts -/

section KeptMap

variable {kept : List (Address × AccountTransactions)} (distinct : (kept.map (·.1)).Nodup)
include distinct

theorem entries_keptMap :
    (collectMap kept).entries.Perm
      (kept.map fun entry => Sigma.mk entry.1 entry.2).reverse := by
  simpa [collectMap] using AList.entries_foldl_insert Prod.fst Prod.snd kept ∅ distinct
    (fun _ _ absent => AList.notMem_empty _ absent)

/-- The map built from distinct entries holds exactly those entries. -/
theorem lookup_keptMap {account : Address} {txs : AccountTransactions}
    (found : (collectMap kept).lookup account = some txs) :
    (account, txs) ∈ kept := by
  have member := (entries_keptMap distinct).subset (AList.mem_lookup_iff.mp found)
  obtain ⟨entry, inKept, same⟩ := List.mem_map.mp (List.mem_reverse.mp member)
  cases same
  exact inKept

theorem keys_keptMap :
    (collectMap kept).keys.Perm (kept.map (·.1)) := by
  have keys := (entries_keptMap distinct).map Sigma.fst
  simp only [List.map_reverse, List.map_map, Function.comp_def] at keys
  exact keys.trans (List.reverse_perm _)

theorem txCount_keptMap :
    txCount (collectMap kept) = (kept.map (·.2.len)).sum := by
  have counts := ((entries_keptMap distinct).map fun entry => entry.2.len).sum_eq
  simpa [txCount, Function.comp_def] using counts

theorem scoresOf_keptMap :
    (scoresOf (collectMap kept)).Perm
      (kept.filterMap (·.2.currentScore)) := by
  have scores := (entries_keptMap distinct).filterMap fun entry => entry.2.currentScore
  rw [List.filterMap_reverse] at scores
  simpa [scoresOf, List.filterMap_map] using scores.trans (List.reverse_perm _)

end KeptMap

/-! ### Garbage collection -/

/-- Over capacity, `gc` on an indexed store keeps the `n` best-scored accounts: at least one if
there is any, whose transactions fit in the capacity unless it is the best account alone, and no
fewer than fit, since the next best account would not. The kept accounts keep all their
transactions, the queue keeps the `n` best scores, every account of the store is kept or purged
exactly once, and the store stays indexed. -/
theorem MempoolStore.Indexed.gc {self : MempoolStore} (indexed : self.Indexed)
    (overCapacity : self.capacity < self.size) :
    ∃ n, n ≤ self.l2PriorityQueue.length ∧ (self.l2PriorityQueue ≠ [] → 0 < n) ∧
      self.gc.2.l2PriorityQueue.Perm (self.l2PriorityQueue.reverse.take n) ∧
      self.gc.2.l2TransactionsPerAccount.keys.Perm ((self.l2PriorityQueue.reverse.take n).map (·.account)) ∧
      (∀ account txs, self.gc.2.l2TransactionsPerAccount.lookup account = some txs →
        self.l2TransactionsPerAccount.lookup account = some txs) ∧
      (self.gc.1 ++ self.gc.2.l2TransactionsPerAccount.keys).Perm self.l2TransactionsPerAccount.keys ∧
      (self.gc.2.size ≤ self.capacity ∨ n = 1) ∧
      (∀ next, self.l2PriorityQueue.reverse[n]? = some next → ∃ txs,
        self.l2TransactionsPerAccount.lookup next.account = some txs ∧
          self.capacity < self.gc.2.size + txs.len) ∧
      self.gc.2.Indexed := by
  -- the walk takes every scored account, best first
  have scores : (scoresOf self.l2TransactionsPerAccount).Perm (self.l2PriorityQueue.reverse ++ []) := by
    rw [List.append_nil]
    exact indexed.consistent.symm.trans (List.reverse_perm _).symm
  obtain ⟨related, entries, _⟩ := collectKept_spec indexed.owned scores
  rw [gc_of_over self overCapacity]
  dsimp only
  generalize collectKept self.l2TransactionsPerAccount self.l2PriorityQueue.reverse = walk at related entries ⊢
  obtain ⟨kept, remaining⟩ := walk
  dsimp only at related entries ⊢
  obtain ⟨bounded, atLeastOne, fitting, maximal⟩ := numberKept_spec self.capacity kept
  generalize (if countKept self.capacity 0 0 kept = 0 ∧ kept ≠ [] then 1
    else countKept self.capacity 0 0 kept) = n at bounded atLeastOne fitting maximal ⊢
  have lengths : self.l2PriorityQueue.length = kept.length := by
    rw [← List.length_reverse]
    exact related.length_eq
  -- the kept accounts are distinct accounts of the store
  have inStore : ∀ entry ∈ kept, self.l2TransactionsPerAccount.lookup entry.1 = some entry.2 :=
    fun entry member => AList.mem_lookup_iff.mpr
      (entries.symm.subset (List.mem_append_left _ (List.mem_map_of_mem member)))
  have distinct : (kept.map (·.1)).Nodup := by
    have nodup := (List.perm_nodupKeys entries).mp self.l2TransactionsPerAccount.nodupKeys
    simpa [List.NodupKeys, List.keys, Function.comp_def] using nodup.sublist (List.sublist_append_left _ _)
  have distinctTaken : ((kept.take n).map (·.1)).Nodup := distinct.sublist ((List.take_sublist n kept).map _)
  have takenRelated := List.forall₂_take n related
  have sized : txCount (collectMap (kept.take n)) = ((kept.take n).map (·.2.len)).sum :=
    txCount_keptMap distinctTaken
  have within : ∀ account txs, (collectMap (kept.take n)).lookup account = some txs →
      self.l2TransactionsPerAccount.lookup account = some txs := fun account txs found =>
    inStore (account, txs) (List.mem_of_mem_take (lookup_keptMap distinctTaken found))
  -- the new queue holds the n best scores in order
  have unequal : (self.l2PriorityQueue.reverse.take n).Pairwise fun a b => MempoolScore.cmp a b ≠ .eq := by
    have reversed := List.pairwise_reverse.mpr indexed.sorted
    refine (reversed.sublist (List.take_sublist n _)).imp fun lower same => ?_
    rw [Std.OrientedCmp.gt_iff_lt.mpr lower] at same
    cases same
  obtain ⟨sortedQueue, queuePerm⟩ := OrdList.Sorted.ofList unequal
  have scoresKept : (scoresOf (collectMap (kept.take n))).Perm (self.l2PriorityQueue.reverse.take n) := by
    have kept := scoresOf_keptMap distinctTaken
    rwa [filterMap_currentScore_of_taken takenRelated] at kept
  refine ⟨n, lengths ▸ bounded, fun nonempty => atLeastOne fun empty => nonempty ?_, queuePerm, ?_, within,
    ?_, sized ▸ fitting, fun next found => ?_, sortedQueue, queuePerm.trans scoresKept.symm,
    fun account txs found => indexed.owned account txs (within account txs found), rfl⟩
  · exact List.length_eq_zero_iff.mp (lengths.trans (List.length_eq_zero_iff.mpr empty))
  · rw [← map_fst_of_taken takenRelated]
    exact keys_keptMap distinctTaken
  · -- the store's accounts are the kept ones, then the dropped ones, then those with no score
    have selfKeys : self.l2TransactionsPerAccount.keys.Perm
        ((kept.take n).map (·.1) ++ (kept.drop n).map (·.1) ++ remaining.keys) := by
      have keys := entries.map Sigma.fst
      rw [← List.map_append, List.take_append_drop]
      simpa [AList.keys, List.keys, Function.comp_def] using keys
    refine List.Perm.trans ?_ selfKeys.symm
    have keptLast := (keys_keptMap distinctTaken).append_left (remaining.keys ++ (kept.drop n).map (·.1))
    have keptFirst : (remaining.keys ++ (kept.drop n).map (·.1) ++ (kept.take n).map (·.1)).Perm
        ((kept.take n).map (·.1) ++ ((kept.drop n).map (·.1) ++ remaining.keys)) :=
      List.perm_append_comm.trans (List.perm_append_comm.append_left _)
    rw [List.append_assoc ((kept.take n).map (·.1))]
    exact keptLast.trans keptFirst
  · -- the next best account is the next one the walk took
    obtain ⟨entry, atIndex, taken⟩ := List.forall₂_getElem?_left related found
    refine ⟨entry.2, taken.1 ▸ inStore entry (List.mem_of_getElem? atIndex), ?_⟩
    rw [sized]
    exact maximal entry atIndex

theorem gc_of_within (self : MempoolStore) (within : self.size ≤ self.capacity) : self.gc = ([], self) :=
  if_neg (Nat.not_lt.mpr within)

/-- `get_mempool_info` takes the stashed accounts and keeps the store indexed. -/
theorem MempoolStore.Indexed.getMempoolInfo {self : MempoolStore} (indexed : self.Indexed) :
    self.getMempoolInfo.1.stashedAccounts = self.stashedAccounts ∧ self.getMempoolInfo.2.stashedAccounts = [] ∧
      self.getMempoolInfo.2.Indexed := by
  have taken : ({ self with stashedAccounts := [] } : MempoolStore).Indexed :=
    ⟨indexed.sorted, indexed.consistent, indexed.owned, indexed.size_eq⟩
  refine ⟨rfl, ?_⟩
  by_cases overCapacity : self.capacity < self.size
  · obtain ⟨_, _, _, _, _, _, _, _, _, collected⟩ := taken.gc overCapacity
    refine ⟨?_, collected⟩
    change (MempoolStore.gc { self with stashedAccounts := [] }).2.stashedAccounts = []
    rw [gc_of_over { self with stashedAccounts := [] } overCapacity]
  · change (MempoolStore.gc { self with stashedAccounts := [] }).2.stashedAccounts = [] ∧
      (MempoolStore.gc { self with stashedAccounts := [] }).2.Indexed
    rw [gc_of_within { self with stashedAccounts := [] } (Nat.not_lt.mp overCapacity)]
    exact ⟨rfl, taken⟩

end ZksyncEra.Mempool
