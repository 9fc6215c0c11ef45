import ZksyncEra.MiniMerkleTree.Tree

/-!
The cached tree is the padded binary tree over all its leaves.

`Represents t leaves minTreeSize depth` ties a tree to the leaves ever added, the trimmed ones
included: its size is the least power of two `2 ^ depth` that holds the minimum size and the
leaves, its untrimmed hashes are the leaves from `startIndex` on, and its cache holds, at each
level where `startIndex` has a set bit, the left sibling of the node above the first untrimmed
leaf. Under it, `compute_merkle_root_and_path` walks the levels of the padded tree
(`WalkAt`): at every level its list is the run of nodes from the one above `startIndex` to the
last one holding a leaf. Every operation keeps `Represents`, so every reachable tree answers with
the root, paths and range proofs of the padded tree.

The walk fails on its last read when the tree has no untrimmed leaf and `startIndex` is a multiple
of the size: then no level ever gets a node, and `trim_start(0)` panics.
-/

namespace ZksyncEra.MiniMerkle

/-! ### Sizes -/

theorem trailingZerosFuel_two_pow : ∀ (d fuel : Nat), d < fuel → trailingZerosFuel fuel (2 ^ d) = d
  | 0, fuel + 1, _ => by simp [trailingZerosFuel]
  | d + 1, fuel + 1, enough => by
    have even : 2 ^ (d + 1) ≠ 0 ∧ 2 ^ (d + 1) % 2 = 0 := ⟨(Nat.two_pow_pos _).ne', by rw [Nat.pow_succ]; omega⟩
    rw [trailingZerosFuel, if_pos even, Nat.pow_succ, Nat.mul_div_cancel _ (by decide),
      trailingZerosFuel_two_pow d fuel (by omega)]

theorem trailingZeros_two_pow (d : Nat) : trailingZeros (2 ^ d) = d :=
  trailingZerosFuel_two_pow d _ d.lt_two_pow_self

theorem treeDepthBySize_two_pow (d : Nat) : treeDepthBySize (2 ^ d) = d :=
  trailingZeros_two_pow d

theorem two_pow_trailingZerosFuel_dvd : ∀ (fuel n : Nat), 2 ^ trailingZerosFuel fuel n ∣ n
  | 0, _ => Nat.one_dvd _
  | fuel + 1, n => by
    rw [trailingZerosFuel]
    split_ifs with even
    · obtain ⟨k, half⟩ := two_pow_trailingZerosFuel_dvd fuel (n / 2)
      exact ⟨k, by rw [Nat.pow_succ, Nat.mul_right_comm, ← half]; omega⟩
    · exact Nat.one_dvd _

theorem isPowerOfTwo_iff (n : Nat) : isPowerOfTwo n = true ↔ n = 2 ^ trailingZeros n := by
  rw [isPowerOfTwo, beq_iff_eq]

/-- `depth` is the height of the least power of two at least `bound`. -/
def IsTreeDepth (bound depth : Nat) : Prop := bound ≤ 2 ^ depth ∧ ∀ e, bound ≤ 2 ^ e → depth ≤ e

theorem powerAtLeast_spec (n : Nat) : ∀ (fuel j : Nat), n ≤ 2 ^ (j + fuel) →
    (∀ e, n ≤ 2 ^ e → j ≤ e) → ∃ k, powerAtLeast n fuel (2 ^ j) = 2 ^ k ∧ IsTreeDepth n k
  | 0, j, enough, least => ⟨j, rfl, enough, least⟩
  | fuel + 1, j, enough, least => by
    rw [powerAtLeast]
    split_ifs with reached
    · exact ⟨j, rfl, reached, least⟩
    · -- the bound lies past `2 ^ j`, so the least power is a higher one
      have higher : ∀ e, n ≤ 2 ^ e → j + 1 ≤ e := by
        intro e fits
        have atLeast := least e fits
        rcases Nat.lt_or_eq_of_le atLeast with below | same
        · exact below
        · subst same
          omega
      rw [show 2 * 2 ^ j = 2 ^ (j + 1) by rw [Nat.pow_succ]; ring]
      exact powerAtLeast_spec n fuel (j + 1) (by rw [Nat.add_right_comm]; exact enough) higher

theorem nextPowerOfTwo_spec (n : Nat) : ∃ k, nextPowerOfTwo n = 2 ^ k ∧ IsTreeDepth n k :=
  powerAtLeast_spec n n 0 (by rw [Nat.zero_add]; exact n.lt_two_pow_self.le) fun e _ => Nat.zero_le e

theorem IsTreeDepth.combine {bound bound' a b : Nat} (first : IsTreeDepth bound a)
    (second : IsTreeDepth bound' b) : IsTreeDepth (max bound bound') (max a b) := by
  refine ⟨?_, fun e fits => ?_⟩
  · have lifted : ∀ c, c ≤ max a b → 2 ^ c ≤ 2 ^ max a b := fun c le =>
      Nat.pow_le_pow_right (by decide) le
    have := lifted a (Nat.le_max_left a b)
    have := lifted b (Nat.le_max_right a b)
    have := first.1
    have := second.1
    omega
  · exact Nat.max_le.mpr ⟨first.2 e (by omega), second.2 e (by omega)⟩

theorem IsTreeDepth.of_pow (a : Nat) : IsTreeDepth (2 ^ a) a :=
  ⟨Nat.le_refl _, fun _ fits => (Nat.pow_le_pow_iff_right (by decide)).mp fits⟩

theorem initialTreeSize_spec {length : Nat} {minTreeSize : Option Nat} {size : Nat}
    (sized : initialTreeSize length minTreeSize = some size) :
    ∃ depth, size = 2 ^ depth ∧ IsTreeDepth (max (minTreeSize.getD 0) length) depth := by
  obtain ⟨k, next, least⟩ := nextPowerOfTwo_spec length
  cases minTreeSize with
  | none =>
    rw [initialTreeSize, next, Option.some_inj] at sized
    exact ⟨k, sized.symm, by rwa [Option.getD_none, Nat.zero_max]⟩
  | some minimum =>
    rw [initialTreeSize] at sized
    split_ifs at sized with power
    obtain ⟨a, rfl⟩ : ∃ a, minimum = 2 ^ a := ⟨_, (isPowerOfTwo_iff _).mp power⟩
    rw [Option.some_inj, next] at sized
    -- the larger of two powers of two is the power of the larger height
    have larger : max (2 ^ a) (2 ^ k) = 2 ^ max a k := by
      rcases Nat.le_total a k with le | le
      · rw [Nat.max_eq_right (Nat.pow_le_pow_right (by decide) le), Nat.max_eq_right le]
      · rw [Nat.max_eq_left (Nat.pow_le_pow_right (by decide) le), Nat.max_eq_left le]
    refine ⟨max a k, by rw [← sized, larger], ?_⟩
    rw [Option.getD_some]
    exact (IsTreeDepth.of_pow a).combine least

/-- `from_hashes` builds a tree of the least power-of-two size that holds the minimum size and
the leaves, with nothing cached. -/
theorem fromHashes_eq {hashes : List H} {minTreeSize : Option Nat} {t : MiniMerkleTree H}
    (built : fromHashes hashes minTreeSize = some t) :
    ∃ depth, t = ⟨hashes, 2 ^ depth, 0, List.replicate depth none⟩ ∧
      IsTreeDepth (max (minTreeSize.getD 0) hashes.length) depth ∧ depth ≤ MAX_TREE_DEPTH := by
  rw [fromHashes] at built
  cases sized : initialTreeSize hashes.length minTreeSize with
  | none => rw [sized] at built; cases built
  | some size =>
    obtain ⟨depth, rfl, least⟩ := initialTreeSize_spec sized
    rw [sized, Option.bind_eq_bind, Option.bind_some, treeDepthBySize_two_pow] at built
    dsimp only at built
    split_ifs at built with shallow
    exact ⟨depth, (Option.some_inj.mp built).symm, least, shallow⟩

/-! ### The padded tree -/

/-- The run of a level of the range check with the item before it, where it starts at a right
child. -/
def withStartItem (index : Nat) (hashes : List H) (item : Option H) : Option (List H) :=
  if index % 2 = 1 then item.map (· :: hashes) else if item.isNone then some hashes else none

/-- The run with the item after it, where it ends at a left child. -/
def withEndItem (hashes : List H) (item : Option H) : Option (List H) :=
  if hashes.length % 2 = 1 then item.map (hashes ++ [·]) else if item.isNone then some hashes else none

/-- A level of the range check once both ends of its run are settled. -/
theorem verifyRangeLevel_of {compress : H → H → H} {state : List H × Nat}
    {items : Option H × Option H} {front hashes : List H}
    (start : withStartItem state.2 state.1 items.1 = some front)
    (finish : withEndItem front items.2 = some hashes) :
    verifyRangeLevel compress state items =
      (Merkle.pairInPlace compress (hashes.length / 2) hashes).map
        fun paired => (paired.take (hashes.length / 2), state.2 / 2) := by
  obtain ⟨run, index⟩ := state
  obtain ⟨first, last⟩ := items
  unfold withStartItem at start
  unfold withEndItem at finish
  unfold verifyRangeLevel
  dsimp only at start finish ⊢
  -- the start item, or its absence, fixes the front of the run
  split_ifs at start with odd isNone <;> cases first <;> simp at start
  all_goals subst start
  -- and the end item, or its absence, the end
  all_goals split_ifs at finish <;> cases last <;> simp at finish
  all_goals subst finish
  all_goals simp_all
  all_goals cases Merkle.pairInPlace compress _ _ <;> rfl

section Padded

variable {H : Type} (hasher : HashEmptySubtree H)

/-- The leaves ever added, padded with empty leaves. -/
def paddedLeaf (leaves : List H) (x : Nat) : H := leaves.getD x (hasher.emptySubtreeHash 0)

/-- The subtree at height `level` and position `j` of the padded tree over `leaves`. -/
def nodeOf (leaves : List H) (level j : Nat) : H :=
  Merkle.node hasher.compress (paddedLeaf hasher leaves) level j

/-- The root of the padded tree of height `depth` over `leaves`. -/
def paddedRoot (leaves : List H) (depth : Nat) : H :=
  Merkle.root hasher.compress depth (paddedLeaf hasher leaves)

theorem emptySubtreeHash_eq_emptyRoot (depth : Nat) :
    hasher.emptySubtreeHash depth =
      Merkle.emptyRoot hasher.compress (hasher.emptySubtreeHash 0) depth := by
  induction depth with
  | zero => rfl
  | succ depth ih => rw [hasher.emptySubtreeHash_succ, Merkle.emptyRoot_succ, ih]

theorem nodeOf_zero (leaves : List H) (j : Nat) : nodeOf hasher leaves 0 j = paddedLeaf hasher leaves j :=
  Merkle.node_zero _ _ j

theorem nodeOf_height_zero (leaves : List H) (depth : Nat) :
    nodeOf hasher leaves depth 0 = paddedRoot hasher leaves depth :=
  Merkle.node_height_zero _ _ depth

/-- A node past the leaves is the empty subtree of its height. -/
theorem nodeOf_of_vacant {leaves : List H} {level j : Nat} (past : leaves.length ≤ j * 2 ^ level) :
    nodeOf hasher leaves level j = hasher.emptySubtreeHash level := by
  have beyond : ∀ x, leaves.length ≤ x → paddedLeaf hasher leaves x = hasher.emptySubtreeHash 0 := by
    intro x past
    rw [paddedLeaf, List.getD_eq_getElem?_getD, List.getElem?_eq_none past, Option.getD_none]
  rw [nodeOf, Merkle.node_of_vacant _ _ beyond past]
  exact (emptySubtreeHash_eq_emptyRoot hasher level).symm

/-- A node over leaves already added does not change as leaves are added. -/
theorem nodeOf_append {leaves : List H} (more : List H) {level j : Nat}
    (inside : (j + 1) * 2 ^ level ≤ leaves.length) :
    nodeOf hasher (leaves ++ more) level j = nodeOf hasher leaves level j := by
  apply Merkle.node_congr
  intro x below
  rw [paddedLeaf, paddedLeaf, List.getD_eq_getElem?_getD, List.getD_eq_getElem?_getD,
    List.getElem?_append_left (by rw [Nat.succ_mul] at inside; omega)]

/-! ### Levels of the walk -/

/-- One past the last node at height `level` that holds one of `count` leaves. -/
def levelEnd (count level : Nat) : Nat := (count + 2 ^ level - 1) / 2 ^ level

theorem levelEnd_succ (count level : Nat) :
    levelEnd count (level + 1) = (levelEnd count level + 1) / 2 := by
  have positive : 0 < 2 ^ level := Nat.two_pow_pos level
  rw [levelEnd, levelEnd, Nat.pow_succ, ← Nat.add_div_right _ positive, Nat.div_div_eq_div_mul]
  congr 1
  omega

theorem div_le_levelEnd {start count : Nat} (level : Nat) (le : start ≤ count) :
    start / 2 ^ level ≤ levelEnd count level := by
  have positive : 0 < 2 ^ level := Nat.two_pow_pos level
  exact Nat.div_le_div_right (by omega)

theorem div_lt_levelEnd {target count : Nat} (level : Nat) (lt : target < count) :
    target / 2 ^ level < levelEnd count level := by
  have positive : 0 < 2 ^ level := Nat.two_pow_pos level
  have shifted : levelEnd count level = (count - 1) / 2 ^ level + 1 := by
    rw [levelEnd, ← Nat.add_div_right _ positive]
    congr 1
    omega
  rw [shifted]
  exact Nat.lt_succ_of_le (Nat.div_le_div_right (by omega))

/-- The nodes from `levelEnd` on hold no leaf. -/
theorem le_levelEnd_mul (count level : Nat) : count ≤ levelEnd count level * 2 ^ level := by
  have positive : 0 < 2 ^ level := Nat.two_pow_pos level
  have split := Nat.div_add_mod (count + 2 ^ level - 1) (2 ^ level)
  have small := Nat.mod_lt (count + 2 ^ level - 1) positive
  rw [levelEnd, Nat.mul_comm]
  omega

/-- The end of the run of nodes at `level` once padded to an even count. -/
def paddedEnd (count level : Nat) : Nat := 2 * ((levelEnd count level + 1) / 2)

/-- The node beside `position` at `level`, where the walk holds one. -/
def siblingEntry (leaves : List H) (level position : Nat) : Option H :=
  if position ^^^ 1 < paddedEnd leaves.length level then
    some (nodeOf hasher leaves level (position ^^^ 1))
  else none

/-- The path entry the walk makes at `level` on its way through `position`. -/
def entryAt (leaves : List H) (side : Option Side) (level position : Nat) : Option H :=
  match side with
  | some .left => if position % 2 = 0 then none else siblingEntry hasher leaves level position
  | some .right => if position % 2 = 1 then none else siblingEntry hasher leaves level position
  | none => siblingEntry hasher leaves level position

/-- The path entry the walk towards `target` makes at `level`. -/
def expectedEntry (leaves : List H) (side : Option Side) (target level : Nat) : Option H :=
  entryAt hasher leaves side level (target / 2 ^ level)

/-- The walk towards `target` at `level`: the run of nodes from the one above `startIndex` to
the last that holds a leaf, the position of `target` in it, and the path so far. -/
structure WalkAt (leaves : List H) (startIndex target : Nat) (side : Option Side) (level : Nat)
    (walk : Walk H) : Prop where
  hashes_eq : walk.hashes = (List.range' (startIndex / 2 ^ level)
    (levelEnd leaves.length level - startIndex / 2 ^ level)).map (nodeOf hasher leaves level)
  absolute_eq : walk.absoluteStartIndex = startIndex / 2 ^ level
  index_eq : walk.index + startIndex / 2 ^ level = target / 2 ^ level
  path_eq : walk.path = (List.range level).map (expectedEntry hasher leaves side target)

/-- A level that ends on a left sibling gets the empty subtree as its right sibling. -/
def padLevel (level : Nat) (hashes : List H) : List H :=
  if hashes.length % 2 = 1 then hashes ++ [hasher.emptySubtreeHash level] else hashes

/-- The rest of a level once the left sibling, if any, is in front. -/
def finishLevel (side : Option Side) (level : Nat) (hashes : List H) (index : Nat) (walk : Walk H) :
    Option (Walk H) :=
  (Merkle.pairInPlace hasher.compress ((padLevel hasher level hashes).length / 2)
      (padLevel hasher level hashes)).bind fun paired => some
    { hashes := paired.take ((padLevel hasher level hashes).length / 2), index := index / 2,
      absoluteStartIndex := walk.absoluteStartIndex / 2,
      path := walk.path ++ [pathEntry side (padLevel hasher level hashes) index] }

theorem walkLevel_of_odd {t : MiniMerkleTree H} {side : Option Side} {walk : Walk H} {level : Nat}
    (odd : walk.absoluteStartIndex % 2 = 1) {sibling : H} (found : t.cache[level]?.join = some sibling) :
    walkLevel hasher t side walk level =
      finishLevel hasher side level (sibling :: walk.hashes) (walk.index + 1) walk := by
  simp only [walkLevel, if_pos odd, found, Option.bind_eq_bind, Option.bind_some, Option.pure_def,
    finishLevel, padLevel]

theorem walkLevel_of_even {t : MiniMerkleTree H} {side : Option Side} {walk : Walk H} {level : Nat}
    (even : walk.absoluteStartIndex % 2 = 0) :
    walkLevel hasher t side walk level =
      finishLevel hasher side level walk.hashes walk.index walk := by
  simp only [walkLevel, if_neg (by omega : ¬ walk.absoluteStartIndex % 2 = 1), Option.bind_eq_bind,
    Option.bind_some, Option.pure_def, finishLevel, padLevel]

theorem add_xor_one {p i : Nat} (even : p % 2 = 0) : p + (i ^^^ 1) = (p + i) ^^^ 1 := by
  rcases Nat.mod_two_eq_zero_or_one i with iEven | iOdd
  · rw [Merkle.xor_one_of_even iEven, Merkle.xor_one_of_even (by omega)]
    omega
  · rw [Merkle.xor_one_of_odd iOdd, Merkle.xor_one_of_odd (by omega)]
    omega

/-- Padding a run of nodes from an even position ends it at `paddedEnd`. -/
theorem padLevel_range' {leaves : List H} {level p : Nat} (even : p % 2 = 0)
    (le : p ≤ levelEnd leaves.length level) :
    padLevel hasher level
        ((List.range' p (levelEnd leaves.length level - p)).map (nodeOf hasher leaves level)) =
      (List.range' p (paddedEnd leaves.length level - p)).map (nodeOf hasher leaves level) := by
  rw [padLevel, List.length_map, List.length_range']
  split_ifs with odd
  · -- the run ends on a left sibling; the node after it holds no leaf
    have next : paddedEnd leaves.length level - p = levelEnd leaves.length level - p + 1 := by
      unfold paddedEnd
      omega
    rw [next, List.range'_concat, List.map_append, List.map_singleton,
      nodeOf_of_vacant hasher (by rw [Nat.one_mul, Nat.add_sub_cancel' le]; exact le_levelEnd_mul _ _)]
  · have same : paddedEnd leaves.length level - p = levelEnd leaves.length level - p := by
      unfold paddedEnd
      omega
    rw [same]

/-- The path entry read from a run of nodes from an even position is the entry beside its
position in the level. -/
theorem pathEntry_range' {leaves : List H} (side : Option Side) {level p : Nat} (index : Nat)
    (even : p % 2 = 0) :
    pathEntry side ((List.range' p (paddedEnd leaves.length level - p)).map
        (nodeOf hasher leaves level)) index = entryAt hasher leaves side level (p + index) := by
  have read : ((List.range' p (paddedEnd leaves.length level - p)).map
      (nodeOf hasher leaves level))[index ^^^ 1]? = siblingEntry hasher leaves level (p + index) := by
    rw [siblingEntry, ← add_xor_one even]
    by_cases inside : index ^^^ 1 < paddedEnd leaves.length level - p
    · rw [List.getElem?_map, List.getElem?_range' inside, Option.map_some, Nat.one_mul,
        if_pos (by omega)]
    · rw [List.getElem?_eq_none (by rw [List.length_map, List.length_range']; omega),
        if_neg (by omega)]
  have parity : (p + index) % 2 = index % 2 := by omega
  cases side with
  | none => exact read
  | some side =>
    cases side with
    | left => simp only [pathEntry, entryAt, parity, read]
    | right => simp only [pathEntry, entryAt, parity, read]

/-- A level of the walk pairs the padded run of nodes up into the run above. -/
theorem finishLevel_spec {leaves : List H} (side : Option Side) {level p : Nat} (index : Nat)
    (walk : Walk H) (even : p % 2 = 0) (le : p ≤ levelEnd leaves.length level) :
    finishLevel hasher side level
        ((List.range' p (levelEnd leaves.length level - p)).map (nodeOf hasher leaves level))
        index walk =
      some { hashes := (List.range' (p / 2) (levelEnd leaves.length (level + 1) - p / 2)).map
               (nodeOf hasher leaves (level + 1)),
             index := index / 2, absoluteStartIndex := walk.absoluteStartIndex / 2,
             path := walk.path ++ [entryAt hasher leaves side level (p + index)] } := by
  set pairs := levelEnd leaves.length (level + 1) - p / 2 with pairsEq
  have width : paddedEnd leaves.length level - p = 2 * pairs := by
    rw [pairsEq, levelEnd_succ]
    unfold paddedEnd
    omega
  have paddedLength : ((List.range' p (paddedEnd leaves.length level - p)).map
      (nodeOf hasher leaves level)).length = 2 * pairs := by
    rw [List.length_map, List.length_range', width]
  have paired : Merkle.parents hasher.compress ((List.range' p (paddedEnd leaves.length level - p)).map
      (nodeOf hasher leaves level)) =
        (List.range' (p / 2) pairs).map (nodeOf hasher leaves (level + 1)) := by
    have half : 2 * (p / 2) = p := by omega
    have run := Merkle.parents_map_range' hasher.compress (paddedLeaf hasher leaves) level (p / 2) pairs
    rw [half] at run
    rw [width]
    exact run
  rw [finishLevel, padLevel_range' hasher even le, paddedLength, Nat.mul_div_cancel_left _ (by decide),
    Merkle.pairInPlace_eq _ _ _ (by rw [paddedLength]),
    List.take_of_length_le (by rw [paddedLength]), Option.bind_some,
    List.take_left' (by rw [Merkle.length_parents, paddedLength]; omega), paired,
    pathEntry_range' hasher side index even]

/-! ### The invariant -/

/-- The cache entry at `level` for a first untrimmed leaf at `startIndex`: the left sibling of
the node above it, where that node is a right child. -/
def cacheEntry (leaves : List H) (startIndex level : Nat) : Option H :=
  if startIndex / 2 ^ level % 2 = 1 then
    some (nodeOf hasher leaves level (startIndex / 2 ^ level - 1))
  else none

/-- `t` is the cached form of the padded tree of height `depth` over `leaves`, all leaves ever
added, for a minimum size `minTreeSize`. -/
structure Represents (t : MiniMerkleTree H) (leaves : List H) (minTreeSize depth : Nat) :
    Prop where
  size_eq : t.binaryTreeSize = 2 ^ depth
  least : IsTreeDepth (max minTreeSize leaves.length) depth
  start_le : t.startIndex ≤ leaves.length
  hashes_eq : t.hashes = leaves.drop t.startIndex
  cache_length : t.cache.length = if t.startIndex = 2 ^ depth then depth + 1 else depth
  cache_eq : ∀ level < t.cache.length,
    t.cache[level]? = some (cacheEntry hasher leaves t.startIndex level)

variable {hasher}

theorem Represents.length_le {t : MiniMerkleTree H} {leaves : List H} {minTreeSize depth : Nat}
    (represents : Represents hasher t leaves minTreeSize depth) : leaves.length ≤ 2 ^ depth :=
  Nat.le_trans (Nat.le_max_right _ _) represents.least.1

theorem Represents.length_hashes {t : MiniMerkleTree H} {leaves : List H} {minTreeSize depth : Nat}
    (represents : Represents hasher t leaves minTreeSize depth) :
    t.hashes.length = leaves.length - t.startIndex := by
  rw [represents.hashes_eq, List.length_drop]

theorem Represents.depth_le_cache {t : MiniMerkleTree H} {leaves : List H} {minTreeSize depth : Nat}
    (represents : Represents hasher t leaves minTreeSize depth) : depth ≤ t.cache.length := by
  have length := represents.cache_length
  split_ifs at length <;> omega

variable (hasher)

/-- The untrimmed leaves are the nodes of height `0` from `startIndex` on. -/
theorem drop_eq_range' (leaves : List H) (start : Nat) :
    leaves.drop start = (List.range' (start / 2 ^ 0) (levelEnd leaves.length 0 - start / 2 ^ 0)).map
      (nodeOf hasher leaves 0) := by
  have bottom : levelEnd leaves.length 0 = leaves.length := by simp [levelEnd]
  rw [bottom, Nat.pow_zero, Nat.div_one]
  apply List.ext_getElem (by simp)
  intro i inDrop _
  rw [List.getElem_drop, List.getElem_map, List.getElem_range', nodeOf_zero, paddedLeaf, Nat.one_mul,
    List.getD_eq_getElem?_getD, List.getElem?_eq_getElem (by rw [List.length_drop] at inDrop; omega),
    Option.getD_some]

variable {hasher}

/-- One level of the walk keeps `WalkAt`. -/
theorem walkLevel_spec {t : MiniMerkleTree H} {leaves : List H} {minTreeSize depth : Nat}
    (represents : Represents hasher t leaves minTreeSize depth) {target : Nat} {side : Option Side}
    {level : Nat} (below : level < depth) {walk : Walk H}
    (walking : WalkAt hasher leaves t.startIndex target side level walk) :
    ∃ next, walkLevel hasher t side walk level = some next ∧
      WalkAt hasher leaves t.startIndex target side (level + 1) next := by
  have sLe : t.startIndex / 2 ^ level ≤ levelEnd leaves.length level :=
    div_le_levelEnd level represents.start_le
  have halves : t.startIndex / 2 ^ (level + 1) = t.startIndex / 2 ^ level / 2 := by
    rw [Nat.pow_succ, Nat.div_div_eq_div_mul]
  have targetHalves : target / 2 ^ (level + 1) = target / 2 ^ level / 2 := by
    rw [Nat.pow_succ, Nat.div_div_eq_div_mul]
  have indexEq := walking.index_eq
  generalize sEq : t.startIndex / 2 ^ level = s at sLe halves indexEq
  rcases Nat.mod_two_eq_zero_or_one s with even | odd
  · -- the first node is a left sibling: the run pairs up as it is
    rw [walkLevel_of_even hasher (by rw [walking.absolute_eq, sEq]; exact even), walking.hashes_eq,
      sEq, finishLevel_spec hasher side walk.index walk even sLe]
    refine ⟨_, rfl, ⟨?_, ?_, ?_, ?_⟩⟩
    · dsimp only
      rw [halves]
    · dsimp only
      rw [walking.absolute_eq, sEq, halves]
    · dsimp only
      rw [halves, targetHalves]
      omega
    · dsimp only
      rw [walking.path_eq, List.range_succ, List.map_append, List.map_singleton, expectedEntry,
        Nat.add_comm s walk.index, indexEq]
  · -- the first node is a right sibling: its left sibling comes from the cache
    have inCache : level < t.cache.length := Nat.lt_of_lt_of_le below represents.depth_le_cache
    have found : t.cache[level]?.join = some (nodeOf hasher leaves level (s - 1)) := by
      rw [represents.cache_eq level inCache, Option.join_some, cacheEntry, sEq, if_pos odd]
    have front : nodeOf hasher leaves level (s - 1) ::
        (List.range' s (levelEnd leaves.length level - s)).map (nodeOf hasher leaves level) =
          (List.range' (s - 1) (levelEnd leaves.length level - (s - 1))).map
            (nodeOf hasher leaves level) := by
      rw [show levelEnd leaves.length level - (s - 1) = levelEnd leaves.length level - s + 1 by omega,
        List.range'_succ, List.map_cons, show s - 1 + 1 = s by omega]
    rw [walkLevel_of_odd hasher (by rw [walking.absolute_eq, sEq]; exact odd) found,
      walking.hashes_eq, sEq, front,
      finishLevel_spec hasher side (walk.index + 1) walk (by omega) (by omega)]
    refine ⟨_, rfl, ⟨?_, ?_, ?_, ?_⟩⟩
    · dsimp only
      rw [halves, show (s - 1) / 2 = s / 2 by omega]
    · dsimp only
      rw [walking.absolute_eq, sEq, halves]
    · dsimp only
      rw [halves, targetHalves]
      omega
    · dsimp only
      rw [walking.path_eq, List.range_succ, List.map_append, List.map_singleton, expectedEntry,
        show s - 1 + (walk.index + 1) = walk.index + s by omega, indexEq]

/-- The walk towards `startIndex + index` over the first `level` levels. -/
theorem walk_spec {t : MiniMerkleTree H} {leaves : List H} {minTreeSize depth : Nat}
    (represents : Represents hasher t leaves minTreeSize depth) (index : Nat) (side : Option Side) :
    ∀ level ≤ depth, ∃ walk, (List.range level).foldlM (walkLevel hasher t side)
        { hashes := t.hashes, index, absoluteStartIndex := t.startIndex, path := [] } = some walk ∧
      WalkAt hasher leaves t.startIndex (t.startIndex + index) side level walk
  | 0, _ => ⟨_, rfl, ⟨by rw [represents.hashes_eq]; exact drop_eq_range' hasher _ _,
      by rw [Nat.pow_zero, Nat.div_one],
      by dsimp only; rw [Nat.pow_zero, Nat.div_one, Nat.div_one]; omega, rfl⟩⟩
  | level + 1, within => by
    obtain ⟨walk, walked, walking⟩ := walk_spec represents index side level (by omega)
    obtain ⟨next, stepped, nextWalking⟩ := walkLevel_spec represents (by omega) walking
    refine ⟨next, ?_, nextWalking⟩
    rw [List.range_succ, List.foldlM_append, walked, Option.bind_eq_bind, Option.bind_some,
      List.foldlM_cons, stepped, Option.bind_eq_bind, Option.bind_some, List.foldlM_nil]
    rfl

/-- `compute_merkle_root_and_path` returns the node of full height at the start of the top run,
if that run holds one, with the path entries of every level. -/
theorem computeMerkleRootAndPath_eq {t : MiniMerkleTree H} {leaves : List H} {minTreeSize depth : Nat}
    (represents : Represents hasher t leaves minTreeSize depth) (index : Nat) (side : Option Side) :
    computeMerkleRootAndPath hasher t index side =
      (((List.range' (t.startIndex / 2 ^ depth) (levelEnd leaves.length depth - t.startIndex / 2 ^ depth)).map
          (nodeOf hasher leaves depth))[0]?).map
        fun root => (root, (List.range depth).map (expectedEntry hasher leaves side (t.startIndex + index))) := by
  obtain ⟨walk, walked, walking⟩ := walk_spec represents index side depth (Nat.le_refl _)
  rw [computeMerkleRootAndPath, represents.size_eq, treeDepthBySize_two_pow]
  simp only [walked, Option.bind_eq_bind, Option.bind_some, walking.hashes_eq, walking.path_eq]
  cases ((List.range' (t.startIndex / 2 ^ depth) (levelEnd leaves.length depth - t.startIndex / 2 ^ depth)).map
          (nodeOf hasher leaves depth))[0]? <;> rfl

/-- A run of leaves no larger than the tree has its top node at position `0`. -/
theorem levelEnd_top {count depth : Nat} (occupied : 0 < count) (fits : count ≤ 2 ^ depth) :
    levelEnd count depth = 1 := by
  have positive : 0 < 2 ^ depth := Nat.two_pow_pos depth
  exact Nat.div_eq_of_lt_le (by omega) (by omega)

theorem computeMerkleRootAndPath_of_occupied {t : MiniMerkleTree H} {leaves : List H}
    {minTreeSize depth : Nat} (represents : Represents hasher t leaves minTreeSize depth)
    (index : Nat) (side : Option Side) (below : t.startIndex < 2 ^ depth)
    (occupied : 0 < leaves.length) :
    computeMerkleRootAndPath hasher t index side =
      some (paddedRoot hasher leaves depth,
        (List.range depth).map (expectedEntry hasher leaves side (t.startIndex + index))) := by
  rw [computeMerkleRootAndPath_eq represents, Nat.div_eq_of_lt below,
    levelEnd_top occupied represents.length_le, Nat.sub_zero, List.range'_one, List.map_singleton,
    List.getElem?_cons_zero, Option.map_some, nodeOf_height_zero]

/-- Past the last leaf, the top run is empty and the walk finds no root. -/
theorem computeMerkleRootAndPath_of_vacant {t : MiniMerkleTree H} {leaves : List H}
    {minTreeSize depth : Nat} (represents : Represents hasher t leaves minTreeSize depth)
    (index : Nat) (side : Option Side)
    (vacant : levelEnd leaves.length depth ≤ t.startIndex / 2 ^ depth) :
    computeMerkleRootAndPath hasher t index side = none := by
  rw [computeMerkleRootAndPath_eq represents, Nat.sub_eq_zero_of_le vacant, List.range'_zero,
    List.map_nil]
  rfl

/-! ### The operations keep the invariant -/

/-- A cache entry reads leaves before the start only. -/
theorem cacheEntry_append {leaves : List H} (more : List H) {startIndex : Nat}
    (le : startIndex ≤ leaves.length) (level : Nat) :
    cacheEntry hasher (leaves ++ more) startIndex level = cacheEntry hasher leaves startIndex level := by
  have below : startIndex / 2 ^ level * 2 ^ level ≤ leaves.length :=
    Nat.le_trans (Nat.div_mul_le_self _ _) le
  unfold cacheEntry
  generalize startIndex / 2 ^ level = position at below ⊢
  split_ifs with odd
  · have positive : 1 ≤ position := by omega
    have covered : (position - 1 + 1) * 2 ^ level ≤ leaves.length := by
      rw [Nat.sub_add_cancel positive]
      exact below
    rw [nodeOf_append hasher more covered]
  · rfl

/-- The left part of the path to a leaf is the cache for a start at that leaf. -/
theorem expectedEntry_left_eq_cacheEntry {leaves : List H} {target : Nat}
    (le : target ≤ leaves.length) (level : Nat) :
    expectedEntry hasher leaves (some .left) target level = cacheEntry hasher leaves target level := by
  have inside := div_le_levelEnd level le
  simp only [expectedEntry, entryAt, cacheEntry, siblingEntry]
  generalize target / 2 ^ level = position at inside ⊢
  rcases Nat.mod_two_eq_zero_or_one position with even | odd
  · rw [if_pos even, if_neg (by omega)]
  · have notEven : ¬ position % 2 = 0 := by omega
    have padded : position - 1 < paddedEnd leaves.length level := by
      unfold paddedEnd
      omega
    rw [if_neg notEven, if_pos odd, Merkle.xor_one_of_odd odd, if_pos padded]

variable (hasher) in
theorem fromHashes_represents {hashes : List H} {minTreeSize : Option Nat} {t : MiniMerkleTree H}
    (built : fromHashes hashes minTreeSize = some t) :
    ∃ depth, Represents hasher t hashes (minTreeSize.getD 0) depth := by
  obtain ⟨depth, rfl, least, -⟩ := fromHashes_eq built
  refine ⟨depth, ⟨rfl, least, Nat.zero_le _, rfl, ?_, ?_⟩⟩
  · rw [List.length_replicate, if_neg (Nat.two_pow_pos depth).ne]
  · intro level inside
    rw [List.length_replicate] at inside
    rw [List.getElem?_replicate, if_pos inside, cacheEntry, Nat.zero_div, Nat.zero_mod,
      if_neg (by decide)]

theorem Represents.hashes_append {t : MiniMerkleTree H} {leaves : List H} {minTreeSize depth : Nat}
    (represents : Represents hasher t leaves minTreeSize depth) (leafHash : H) :
    t.hashes ++ [leafHash] = (leaves ++ [leafHash]).drop t.startIndex := by
  rw [represents.hashes_eq, List.drop_append_of_le_length represents.start_le]

/-- A push into a tree with room keeps its size and cache. -/
theorem pushHash_represents_of_lt {t : MiniMerkleTree H} {leaves : List H} {minTreeSize depth : Nat}
    (represents : Represents hasher t leaves minTreeSize depth) (leafHash : H)
    (room : leaves.length < 2 ^ depth) :
    Represents hasher (t.pushHash leafHash) (leaves ++ [leafHash]) minTreeSize depth := by
  have startLe := represents.start_le
  have fits : ¬ t.startIndex + (t.hashes ++ [leafHash]).length > t.binaryTreeSize := by
    rw [List.length_append, represents.length_hashes, represents.size_eq, List.length_singleton]
    omega
  have least : IsTreeDepth (max minTreeSize (leaves ++ [leafHash]).length) depth := by
    have old := represents.least
    rw [List.length_append, List.length_singleton]
    refine ⟨by have := old.1; omega, fun e within => old.2 e (by omega)⟩
  rw [MiniMerkleTree.pushHash]
  dsimp only
  rw [if_neg fits]
  refine ⟨represents.size_eq, least, Nat.le_trans startLe (by simp), represents.hashes_append leafHash,
    represents.cache_length, fun level inside => ?_⟩
  rw [represents.cache_eq level inside, cacheEntry_append _ startLe]

/-- A push into a full tree doubles it; the cache gets an empty top entry, unless the tree was
trimmed whole and already holds its root there. -/
theorem pushHash_represents_of_full {t : MiniMerkleTree H} {leaves : List H} {minTreeSize depth : Nat}
    (represents : Represents hasher t leaves minTreeSize depth) (leafHash : H)
    (full : leaves.length = 2 ^ depth) :
    Represents hasher (t.pushHash leafHash) (leaves ++ [leafHash]) minTreeSize (depth + 1) := by
  have positive := Nat.two_pow_pos depth
  have startLe := represents.start_le
  have grows : t.startIndex + (t.hashes ++ [leafHash]).length > t.binaryTreeSize := by
    rw [List.length_append, represents.length_hashes, represents.size_eq, List.length_singleton]
    omega
  have doubled : t.binaryTreeSize * 2 = 2 ^ (depth + 1) := by rw [represents.size_eq, Nat.pow_succ]
  have twice : 2 ^ (depth + 1) = 2 * 2 ^ depth := Nat.pow_succ'
  have least : IsTreeDepth (max minTreeSize (leaves ++ [leafHash]).length) (depth + 1) := by
    have old := represents.least.1
    rw [List.length_append, List.length_singleton]
    constructor
    · omega
    · intro e within
      have above : 2 ^ depth < 2 ^ e := by omega
      exact (Nat.pow_lt_pow_iff_right Nat.one_lt_two).mp above
  have notTop : t.startIndex ≠ 2 ^ (depth + 1) := by omega
  have cacheLength := represents.cache_length
  rw [MiniMerkleTree.pushHash]
  dsimp only
  rw [if_pos grows, doubled, treeDepthBySize_two_pow]
  by_cases trimmed : t.startIndex = 2 ^ depth
  · -- the tree was trimmed whole: its root is already the top entry
    rw [if_pos trimmed] at cacheLength
    have kept : ¬ t.cache.length < depth + 1 := by omega
    rw [if_neg kept]
    refine ⟨rfl, least, Nat.le_trans startLe (by simp), represents.hashes_append leafHash, ?_,
      fun level inside => ?_⟩
    · rw [cacheLength, if_neg notTop]
    · rw [represents.cache_eq level inside, cacheEntry_append _ startLe]
  · rw [if_neg trimmed] at cacheLength
    have extended : t.cache.length < depth + 1 := by omega
    have below : t.startIndex < 2 ^ depth := by omega
    rw [if_pos extended]
    refine ⟨rfl, least, Nat.le_trans startLe (by simp), represents.hashes_append leafHash, ?_,
      fun level inside => ?_⟩
    · rw [List.length_append, cacheLength, List.length_singleton, if_neg notTop]
    · rw [List.length_append, cacheLength, List.length_singleton] at inside
      rcases Nat.lt_succ_iff_lt_or_eq.mp inside with old | top
      · have inOld : level < t.cache.length := by omega
        rw [List.getElem?_append_left inOld, represents.cache_eq level inOld,
          cacheEntry_append _ startLe]
      · -- the new top entry: the start lies in the left half
        have past : t.cache.length ≤ level := by omega
        rw [List.getElem?_append_right past, cacheLength, top, Nat.sub_self,
          List.getElem?_cons_zero, cacheEntry, Nat.div_eq_of_lt below, if_neg (by decide)]

theorem pushHash_represents {t : MiniMerkleTree H} {leaves : List H} {minTreeSize depth : Nat}
    (represents : Represents hasher t leaves minTreeSize depth) (leafHash : H) :
    ∃ depth', Represents hasher (t.pushHash leafHash) (leaves ++ [leafHash]) minTreeSize depth' := by
  rcases Nat.lt_or_eq_of_le represents.length_le with room | full
  · exact ⟨depth, pushHash_represents_of_lt represents leafHash room⟩
  · exact ⟨depth + 1, pushHash_represents_of_full represents leafHash full⟩

/-- A trim of at most the untrimmed leaves, with the start below the end of the tree, moves
the start and rebuilds the cache from the left part of the path to the new first leaf. -/
theorem trimStart_represents {t : MiniMerkleTree H} {leaves : List H} {minTreeSize depth : Nat}
    (represents : Represents hasher t leaves minTreeSize depth) {count : Nat}
    (enough : count ≤ t.hashes.length) (below : t.startIndex < 2 ^ depth)
    (occupied : 0 < leaves.length) :
    ∃ trimmed, t.trimStart hasher count = some trimmed ∧
      trimmed.startIndex = t.startIndex + count ∧ Represents hasher trimmed leaves minTreeSize depth := by
  have startLe := represents.start_le
  have lengthHashes := represents.length_hashes
  have notShort : ¬ ¬ t.hashes.length ≥ count := fun short => short enough
  rw [MiniMerkleTree.trimStart, if_neg notShort,
    computeMerkleRootAndPath_of_occupied represents count (some .left) below occupied]
  refine ⟨_, rfl, rfl, ⟨represents.size_eq, represents.least, by dsimp only; omega, ?_, ?_, ?_⟩⟩
  · dsimp only
    rw [represents.hashes_eq, List.drop_drop]
  · dsimp only
    rw [represents.size_eq]
    split_ifs with whole
    · rw [List.length_append, List.length_map, List.length_range, List.length_singleton]
    · rw [List.length_map, List.length_range]
  · have path : ∀ level < depth,
        ((List.range depth).map (expectedEntry hasher leaves (some .left) (t.startIndex + count)))[level]? =
          some (cacheEntry hasher leaves (t.startIndex + count) level) := by
      intro level inside
      rw [List.getElem?_map, List.getElem?_range inside, Option.map_some,
        expectedEntry_left_eq_cacheEntry (by omega)]
    dsimp only
    rw [represents.size_eq]
    split_ifs with whole
    · intro level inside
      rw [List.length_append, List.length_map, List.length_range, List.length_singleton] at inside
      rcases Nat.lt_succ_iff_lt_or_eq.mp inside with lower | top
      · have inPath : level < ((List.range depth).map
            (expectedEntry hasher leaves (some .left) (t.startIndex + count))).length := by
          rw [List.length_map, List.length_range]
          exact lower
        rw [List.getElem?_append_left inPath, path level lower]
      · -- trimmed whole: the root is cached above the path
        have pastPath : ((List.range depth).map
            (expectedEntry hasher leaves (some .left) (t.startIndex + count))).length ≤ level := by
          rw [List.length_map, List.length_range, top]
        rw [List.getElem?_append_right pastPath, List.length_map, List.length_range, top, Nat.sub_self, List.getElem?_cons_zero, cacheEntry,
          whole, Nat.div_self (Nat.two_pow_pos depth), if_pos (by decide), Nat.sub_self,
          nodeOf_height_zero]
    · intro level inside
      rw [List.length_map, List.length_range] at inside
      exact path level inside

/-- With no untrimmed leaf and the start at either end of the tree, the top run of the walk is
empty, so every trim fails, `trim_start(0)` included. -/
theorem trimStart_of_exhausted {t : MiniMerkleTree H} {leaves : List H} {minTreeSize depth : Nat}
    (represents : Represents hasher t leaves minTreeSize depth) (empty : t.hashes = [])
    (atEnd : t.startIndex = 0 ∨ t.startIndex = 2 ^ depth) (count : Nat) :
    t.trimStart hasher count = none := by
  have startLe := represents.start_le
  have lengthHashes := represents.length_hashes
  rw [empty, List.length_nil] at lengthHashes
  have vacant : levelEnd leaves.length depth ≤ t.startIndex / 2 ^ depth := by
    rcases atEnd with atZero | atTop
    · rw [levelEnd, show leaves.length = 0 by omega, Nat.zero_add,
        Nat.div_eq_of_lt (Nat.sub_lt (Nat.two_pow_pos depth) Nat.one_pos)]
      exact Nat.zero_le _
    · rw [levelEnd_top (by have := Nat.two_pow_pos depth; omega) represents.length_le, atTop,
        Nat.div_self (Nat.two_pow_pos depth)]
  by_cases enough : count ≤ t.hashes.length
  · have notShort : ¬ ¬ t.hashes.length ≥ count := fun short => short enough
    rw [MiniMerkleTree.trimStart, if_neg notShort,
      computeMerkleRootAndPath_of_vacant represents count (some .left) vacant]
    rfl
  · rw [MiniMerkleTree.trimStart, if_pos enough]
    rfl

/-- `trim_start(0)` panics on the empty tree, and on a full tree once all of its leaves are
trimmed: `compute_merkle_root_and_path` reads `hashes[0]` of an empty level. -/
theorem trimStart_zero_of_exhausted (hasher : HashEmptySubtree H) (left right : H) :
    (fromHashes ([] : List H) none).bind (fun t => t.trimStart hasher 0) = none ∧
      (fromHashes [left, right] none).bind
        (fun t => (t.trimStart hasher 2).bind fun t => t.trimStart hasher 0) = none :=
  -- the parities of the list lengths reduce only with `Nat.mod` unfolded
  ⟨rfl, by with_unfolding_all rfl⟩

/-- Without a leaf left, the start is at one end of the tree or strictly inside it. -/
theorem Represents.inside_of_not_exhausted {t : MiniMerkleTree H} {leaves : List H}
    {minTreeSize depth : Nat} (represents : Represents hasher t leaves minTreeSize depth)
    (alive : ¬ (t.hashes = [] ∧ (t.startIndex = 0 ∨ t.startIndex = 2 ^ depth))) :
    t.startIndex < 2 ^ depth ∧ 0 < leaves.length := by
  have startLe := represents.start_le
  have lengthHashes := represents.length_hashes
  have fits := represents.length_le
  by_cases empty : t.hashes = []
  · have inner : ¬ (t.startIndex = 0 ∨ t.startIndex = 2 ^ depth) := fun ends => alive ⟨empty, ends⟩
    omega
  · have nonempty := List.length_pos_iff.mpr empty
    omega

/-- A trim within the untrimmed leaves fails exactly when none is left and the start is at
either end of the tree. -/
theorem trimStart_isSome_iff {t : MiniMerkleTree H} {leaves : List H} {minTreeSize depth : Nat}
    (represents : Represents hasher t leaves minTreeSize depth) {count : Nat}
    (enough : count ≤ t.hashes.length) :
    (t.trimStart hasher count).isSome ↔
      ¬ (t.hashes = [] ∧ (t.startIndex = 0 ∨ t.startIndex = t.binaryTreeSize)) := by
  rw [represents.size_eq]
  by_cases exhausted : t.hashes = [] ∧ (t.startIndex = 0 ∨ t.startIndex = 2 ^ depth)
  · rw [trimStart_of_exhausted represents exhausted.1 exhausted.2 count]
    exact iff_of_false (by simp) (not_not_intro exhausted)
  · obtain ⟨below, occupied⟩ := represents.inside_of_not_exhausted exhausted
    obtain ⟨trimmed, trims, -, -⟩ := trimStart_represents represents enough below occupied
    rw [trims]
    exact iff_of_true rfl exhausted

/-- A trim that returns keeps the invariant. -/
theorem Represents.trimStart {t trimmed : MiniMerkleTree H} {leaves : List H}
    {minTreeSize depth : Nat} (represents : Represents hasher t leaves minTreeSize depth)
    {count : Nat} (trims : t.trimStart hasher count = some trimmed) :
    Represents hasher trimmed leaves minTreeSize depth := by
  have enough : count ≤ t.hashes.length := by
    by_contra short
    have notEnough : ¬ t.hashes.length ≥ count := short
    rw [MiniMerkleTree.trimStart, if_pos notEnough] at trims
    cases trims
  have alive : ¬ (t.hashes = [] ∧ (t.startIndex = 0 ∨ t.startIndex = 2 ^ depth)) := by
    rintro ⟨empty, ends⟩
    rw [trimStart_of_exhausted represents empty ends] at trims
    cases trims
  obtain ⟨below, occupied⟩ := represents.inside_of_not_exhausted alive
  obtain ⟨trimmed', trims', -, trimmedRepresents⟩ :=
    trimStart_represents represents enough below occupied
  rw [trims, Option.some.injEq] at trims'
  rw [trims']
  exact trimmedRepresents

/-! ### What the tree reports -/

theorem merkleRoot_eq {t : MiniMerkleTree H} {leaves : List H} {minTreeSize depth : Nat}
    (represents : Represents hasher t leaves minTreeSize depth) :
    t.merkleRoot hasher = some (paddedRoot hasher leaves depth) := by
  have startLe := represents.start_le
  have lengthHashes := represents.length_hashes
  have fits := represents.length_le
  rw [MiniMerkleTree.merkleRoot]
  by_cases empty : t.hashes = []
  · rw [empty, List.length_nil] at lengthHashes
    rw [if_pos (List.isEmpty_iff.mpr empty)]
    dsimp only
    rw [represents.size_eq, treeDepthBySize_two_pow]
    split_ifs with atZero atTop
    · -- no leaf at all: the empty tree
      rw [← nodeOf_height_zero, nodeOf_of_vacant hasher (by rw [Nat.zero_mul]; omega)]
    · -- trimmed whole: the root is the top cache entry
      have cacheLength := represents.cache_length
      rw [if_pos atTop] at cacheLength
      rw [represents.cache_eq depth (by omega), Option.join_some, cacheEntry, atTop,
        Nat.div_self (Nat.two_pow_pos depth), if_pos (by decide), Nat.sub_self, nodeOf_height_zero]
    · rw [computeMerkleRootAndPath_of_occupied represents 0 none (by omega) (by omega),
        Option.map_some]
  · have nonempty := List.length_pos_iff.mpr empty
    have notEmpty : ¬ t.hashes.isEmpty = true := by rwa [List.isEmpty_iff]
    rw [if_neg notEmpty,
      computeMerkleRootAndPath_of_occupied represents 0 none (by omega) (by omega), Option.map_some]

/-! ### Proofs of inclusion -/

/-- The node beside a position before the end of its level is one the walk holds. -/
theorem siblingEntry_of_lt {leaves : List H} {level position : Nat}
    (lt : position < levelEnd leaves.length level) :
    siblingEntry hasher leaves level position = some (nodeOf hasher leaves level (position ^^^ 1)) := by
  have padded : position ^^^ 1 < paddedEnd leaves.length level := by
    unfold paddedEnd
    rcases Nat.mod_two_eq_zero_or_one position with even | odd
    · rw [Merkle.xor_one_of_even even]
      omega
    · rw [Merkle.xor_one_of_odd odd]
      omega
  rw [siblingEntry, if_pos padded]

variable (hasher) in
/-- The proof of inclusion of the leaf at `target`: the node beside its ancestor at every
level below the root. -/
def inclusionPath (leaves : List H) (depth target : Nat) : List H :=
  (List.range depth).map fun level => nodeOf hasher leaves level (target / 2 ^ level ^^^ 1)

@[simp] theorem length_inclusionPath (leaves : List H) (depth target : Nat) :
    (inclusionPath hasher leaves depth target).length = depth := by
  rw [inclusionPath, List.length_map, List.length_range]

theorem Represents.getElem_hashes {t : MiniMerkleTree H} {leaves : List H} {minTreeSize depth : Nat}
    (represents : Represents hasher t leaves minTreeSize depth) {index : Nat}
    (inside : index < t.hashes.length) :
    t.hashes[index] = paddedLeaf hasher leaves (t.startIndex + index) := by
  rw [paddedLeaf, List.getD_eq_getElem?_getD, ← List.getElem?_drop, ← represents.hashes_eq,
    List.getElem?_eq_getElem inside, Option.getD_some]

theorem mapM_id_map_some : ∀ l : List H, (l.map some).mapM id = some l
  | [] => rfl
  | item :: rest => by
    rw [List.map_cons, List.mapM_cons, mapM_id_map_some rest]
    rfl

theorem merkleRootAndPath_eq {t : MiniMerkleTree H} {leaves : List H} {minTreeSize depth : Nat}
    (represents : Represents hasher t leaves minTreeSize depth) {index : Nat}
    (inside : index < t.hashes.length) :
    t.merkleRootAndPath hasher index =
      some (paddedRoot hasher leaves depth, inclusionPath hasher leaves depth (t.startIndex + index)) := by
  have startLe := represents.start_le
  have lengthHashes := represents.length_hashes
  have fits := represents.length_le
  have entries : (List.range depth).map (expectedEntry hasher leaves none (t.startIndex + index)) =
      (inclusionPath hasher leaves depth (t.startIndex + index)).map some := by
    rw [inclusionPath, List.map_map]
    apply List.map_congr_left
    intro level _
    exact siblingEntry_of_lt (div_lt_levelEnd level (by omega))
  have notOutside : ¬ ¬ index < t.hashes.length := fun outside => outside inside
  rw [MiniMerkleTree.merkleRootAndPath, if_neg notOutside]
  dsimp only
  rw [computeMerkleRootAndPath_of_occupied represents index none (by omega) (by omega), entries]
  simp only [Option.bind_eq_bind, Option.bind_some, mapM_id_map_some, Option.pure_def]

/-- The fold of the inclusion check is the path folded up by the bits of the index. -/
theorem foldl_foldMerkleStep (compress : H → H → H) (leafHash : H) (index : Nat) (path : List H) :
    path.foldl (foldMerkleStep compress) (leafHash, index) =
      (Merkle.foldPath compress (fun level => path.getD level leafHash) index leafHash path.length,
        index / 2 ^ path.length) := by
  induction path using List.reverseRecOn with
  | nil => simp
  | append_singleton path item ih =>
    have below : ∀ level < path.length,
        (path ++ [item]).getD level leafHash = path.getD level leafHash :=
      fun level inside => List.getD_append _ _ _ _ inside
    have top : (path ++ [item]).getD path.length leafHash = item := by
      rw [List.getD_append_right _ _ _ _ (Nat.le_refl _), Nat.sub_self]
      rfl
    rw [List.foldl_append, ih, List.foldl_cons, List.foldl_nil, List.length_append,
      List.length_singleton, Merkle.foldPath_succ, top,
      Merkle.foldPath_sibling_congr compress index leafHash below, Nat.pow_succ,
      ← Nat.div_div_eq_div_mul, foldMerkleStep]
    by_cases bit : index.testBit path.length
    · -- the hash so far is a right child
      have odd : index / 2 ^ path.length % 2 = 1 := by
        simpa [Nat.testBit_eq_decide_div_mod_eq] using bit
      have notEven : ¬ index / 2 ^ path.length % 2 = 0 := by
        rw [odd]
        decide
      rw [if_pos bit, if_neg notEven]
    · have even : index / 2 ^ path.length % 2 = 0 := by
        simp only [Nat.testBit_eq_decide_div_mod_eq, decide_eq_true_eq] at bit
        omega
      rw [if_neg bit, if_pos even]

/-- The proof of inclusion of a leaf inside the tree verifies against the padded root. -/
theorem foldMerklePath_inclusionPath (leaves : List H) {depth target : Nat}
    (inside : target < 2 ^ depth) :
    foldMerklePath hasher.compress (paddedLeaf hasher leaves target) target
        (inclusionPath hasher leaves depth target) =
      paddedRoot hasher leaves depth := by
  have entries : ∀ level < depth,
      (inclusionPath hasher leaves depth target).getD level (paddedLeaf hasher leaves target) =
        nodeOf hasher leaves level (target / 2 ^ level ^^^ 1) := by
    intro level below
    rw [inclusionPath, List.getD_eq_getElem?_getD, List.getElem?_map, List.getElem?_range below,
      Option.map_some, Option.getD_some]
  rw [foldMerklePath, foldl_foldMerkleStep, length_inclusionPath]
  dsimp only
  rw [Merkle.foldPath_sibling_congr hasher.compress target _ entries]
  exact Merkle.foldPath_eq_root hasher.compress (paddedLeaf hasher leaves) inside

/-! ### Proofs of a range -/

variable (hasher)

theorem withStartItem_run {leaves : List H} {level p q : Nat} (le : p ≤ q) :
    withStartItem p ((List.range' p (q + 1 - p)).map (nodeOf hasher leaves level))
        (if p % 2 = 1 then some (nodeOf hasher leaves level (p - 1)) else none) =
      some ((List.range' (2 * (p / 2)) (q + 1 - 2 * (p / 2))).map (nodeOf hasher leaves level)) := by
  unfold withStartItem
  rcases Nat.mod_two_eq_zero_or_one p with even | odd
  · have notOdd : ¬ p % 2 = 1 := by omega
    have aligned : 2 * (p / 2) = p := by omega
    rw [if_neg notOdd, if_neg notOdd, Option.isNone_none, if_pos rfl, aligned]
  · -- the run starts at a right child: its left sibling joins it
    have front : nodeOf hasher leaves level (p - 1) ::
        (List.range' p (q + 1 - p)).map (nodeOf hasher leaves level) =
          (List.range' (2 * (p / 2)) (q + 1 - 2 * (p / 2))).map (nodeOf hasher leaves level) := by
      rw [show 2 * (p / 2) = p - 1 by omega, show q + 1 - (p - 1) = q + 1 - p + 1 by omega,
        List.range'_succ, List.map_cons, show p - 1 + 1 = p by omega]
    rw [if_pos odd, if_pos odd, Option.map_some, front]

theorem withEndItem_run {leaves : List H} {level p q : Nat} (even : p % 2 = 0) (le : p ≤ q) :
    withEndItem ((List.range' p (q + 1 - p)).map (nodeOf hasher leaves level))
        (if q % 2 = 1 then none else some (nodeOf hasher leaves level (q + 1))) =
      some ((List.range' p (2 * (q / 2) + 2 - p)).map (nodeOf hasher leaves level)) := by
  unfold withEndItem
  rw [List.length_map, List.length_range']
  rcases Nat.mod_two_eq_zero_or_one q with qEven | qOdd
  · -- the run ends at a left child: its right sibling joins it
    have oddLength : (q + 1 - p) % 2 = 1 := by omega
    have notOdd : ¬ q % 2 = 1 := by omega
    have back : (List.range' p (q + 1 - p)).map (nodeOf hasher leaves level) ++
        [nodeOf hasher leaves level (q + 1)] =
          (List.range' p (2 * (q / 2) + 2 - p)).map (nodeOf hasher leaves level) := by
      rw [show 2 * (q / 2) + 2 - p = q + 1 - p + 1 by omega, List.range'_concat, List.map_append,
        List.map_singleton, Nat.one_mul, show p + (q + 1 - p) = q + 1 by omega]
    rw [if_pos oddLength, if_neg notOdd, Option.map_some, back]
  · have evenLength : ¬ (q + 1 - p) % 2 = 1 := by omega
    rw [if_neg evenLength, if_pos qOdd, Option.isNone_none, if_pos rfl,
      show 2 * (q / 2) + 2 - p = q + 1 - p by omega]

/-- A run of nodes of even length from an even position pairs up into the run of its parents. -/
theorem pairInPlace_run (leaves : List H) (level p m : Nat) :
    ∃ paired, Merkle.pairInPlace hasher.compress m
        ((List.range' (2 * p) (2 * m)).map (nodeOf hasher leaves level)) = some paired ∧
      paired.take m = (List.range' p m).map (nodeOf hasher leaves (level + 1)) := by
  have even : ((List.range' (2 * p) (2 * m)).map (nodeOf hasher leaves level)).length = 2 * m := by
    rw [List.length_map, List.length_range']
  have parents : Merkle.parents hasher.compress
      ((List.range' (2 * p) (2 * m)).map (nodeOf hasher leaves level)) =
        (List.range' p m).map (nodeOf hasher leaves (level + 1)) :=
    Merkle.parents_map_range' hasher.compress (paddedLeaf hasher leaves) level p m
  have taken := Merkle.pairInPlace_take hasher.compress even
  rw [parents] at taken
  exact Option.map_eq_some_iff.mp taken

/-- A level of the range check over the run of nodes from `p` to `q`, with the nodes beside
its ends that the proof holds, gives the run of their parents. -/
theorem verifyRangeLevel_run {leaves : List H} {level p q : Nat} (le : p ≤ q) :
    verifyRangeLevel hasher.compress ((List.range' p (q + 1 - p)).map (nodeOf hasher leaves level), p)
        (if p % 2 = 1 then some (nodeOf hasher leaves level (p - 1)) else none,
          if q % 2 = 1 then none else some (nodeOf hasher leaves level (q + 1))) =
      some ((List.range' (p / 2) (q / 2 + 1 - p / 2)).map (nodeOf hasher leaves (level + 1)), p / 2) := by
  have pairs : 2 * (q / 2) + 2 - 2 * (p / 2) = 2 * (q / 2 + 1 - p / 2) := by omega
  have half : ((List.range' (2 * (p / 2)) (2 * (q / 2) + 2 - 2 * (p / 2))).map
      (nodeOf hasher leaves level)).length / 2 = q / 2 + 1 - p / 2 := by
    rw [List.length_map, List.length_range', pairs]
    omega
  obtain ⟨paired, isPaired, taken⟩ := pairInPlace_run hasher leaves level (p / 2) (q / 2 + 1 - p / 2)
  rw [verifyRangeLevel_of (withStartItem_run hasher le) (withEndItem_run hasher (by omega) (by omega)),
    half, pairs, isPaired, Option.map_some, taken]


/-- The state of the range check at `level` for the leaves from `startIndex` to `last`: the
nodes above them, and the position of the first. -/
def rangeRun (leaves : List H) (startIndex last level : Nat) : List H × Nat :=
  ((List.range' (startIndex / 2 ^ level) (last / 2 ^ level + 1 - startIndex / 2 ^ level)).map
    (nodeOf hasher leaves level), startIndex / 2 ^ level)

/-- The right part of the path to a leaf holds the node after its ancestor where that is a
left child. -/
theorem expectedEntry_right_eq {leaves : List H} {last : Nat} (lt : last < leaves.length)
    (level : Nat) :
    expectedEntry hasher leaves (some .right) last level =
      if last / 2 ^ level % 2 = 1 then none
      else some (nodeOf hasher leaves level (last / 2 ^ level + 1)) := by
  have inside := div_lt_levelEnd level lt
  simp only [expectedEntry, entryAt]
  generalize last / 2 ^ level = position at inside ⊢
  split_ifs with odd
  · rfl
  · rw [siblingEntry_of_lt inside, Merkle.xor_one_of_even (by omega)]

theorem verifyRangeLevel_rangeRun {leaves : List H} {startIndex last : Nat}
    (le : startIndex ≤ last) (lt : last < leaves.length) (level : Nat) :
    verifyRangeLevel hasher.compress (rangeRun hasher leaves startIndex last level)
        (cacheEntry hasher leaves startIndex level, expectedEntry hasher leaves (some .right) last level) =
      some (rangeRun hasher leaves startIndex last (level + 1)) := by
  have halves : ∀ n, n / 2 ^ (level + 1) = n / 2 ^ level / 2 := fun n => by
    rw [Nat.pow_succ, Nat.div_div_eq_div_mul]
  rw [rangeRun, cacheEntry, expectedEntry_right_eq hasher lt,
    verifyRangeLevel_run hasher (Nat.div_le_div_right le), rangeRun, halves, halves]

/-- The range check over the first `level` levels. -/
theorem foldlM_verifyRangeLevel {leaves : List H} {startIndex last : Nat}
    (le : startIndex ≤ last) (lt : last < leaves.length) : ∀ level,
    ((List.range level).map fun level => (cacheEntry hasher leaves startIndex level,
        expectedEntry hasher leaves (some .right) last level)).foldlM
      (verifyRangeLevel hasher.compress) (rangeRun hasher leaves startIndex last 0) =
      some (rangeRun hasher leaves startIndex last level)
  | 0 => rfl
  | level + 1 => by
    rw [List.range_succ, List.map_append, List.foldlM_append,
      foldlM_verifyRangeLevel le lt level, Option.bind_eq_bind, Option.bind_some,
      List.map_singleton, List.foldlM_cons, verifyRangeLevel_rangeRun hasher le lt,
      Option.bind_eq_bind, Option.bind_some, List.foldlM_nil]
    rfl

/-- The first leaves from `start` on are the nodes of height `0` there. -/
theorem take_drop_eq_range' {leaves : List H} {start count : Nat}
    (inside : start + count ≤ leaves.length) :
    (leaves.drop start).take count = (List.range' start count).map (nodeOf hasher leaves 0) := by
  have sameLength : ((leaves.drop start).take count).length =
      ((List.range' start count).map (nodeOf hasher leaves 0)).length := by
    rw [List.length_take, List.length_drop, List.length_map, List.length_range']
    omega
  apply List.ext_getElem sameLength
  intro i inTake _
  rw [List.length_take] at inTake
  have inLeaves : start + i < leaves.length := by omega
  rw [List.getElem_take, List.getElem_drop, List.getElem_map, List.getElem_range', nodeOf_zero,
    paddedLeaf, Nat.one_mul, List.getD_eq_getElem?_getD, List.getElem?_eq_getElem inLeaves,
    Option.getD_some]

variable {hasher}

/-- Below the end of the tree, the cache holds an entry for every level. -/
theorem Represents.cache_eq_map {t : MiniMerkleTree H} {leaves : List H} {minTreeSize depth : Nat}
    (represents : Represents hasher t leaves minTreeSize depth) (notTop : t.startIndex ≠ 2 ^ depth) :
    t.cache = (List.range depth).map (cacheEntry hasher leaves t.startIndex) := by
  have cacheLength := represents.cache_length
  rw [if_neg notTop] at cacheLength
  apply List.ext_getElem?
  intro level
  by_cases inside : level < depth
  · rw [represents.cache_eq level (by omega), List.getElem?_map, List.getElem?_range inside,
      Option.map_some]
  · have pastCache : t.cache.length ≤ level := by omega
    have pastMap : ((List.range depth).map (cacheEntry hasher leaves t.startIndex)).length ≤ level := by
      rw [List.length_map, List.length_range]
      omega
    rw [List.getElem?_eq_none pastCache, List.getElem?_eq_none pastMap]

theorem merkleRootAndPathsForRange_eq {t : MiniMerkleTree H} {leaves : List H}
    {minTreeSize depth : Nat} (represents : Represents hasher t leaves minTreeSize depth)
    {rangeEnd : Nat} (positive : 0 < rangeEnd) (inside : rangeEnd ≤ t.hashes.length) :
    t.merkleRootAndPathsForRange hasher rangeEnd =
      some (paddedRoot hasher leaves depth, t.cache,
        (List.range depth).map (expectedEntry hasher leaves (some .right) (t.startIndex + (rangeEnd - 1)))) := by
  have startLe := represents.start_le
  have lengthHashes := represents.length_hashes
  have fits := represents.length_le
  have notEmpty : ¬ ¬ rangeEnd > 0 := fun empty => empty positive
  have notOutside : ¬ ¬ rangeEnd ≤ t.hashes.length := fun outside => outside inside
  rw [MiniMerkleTree.merkleRootAndPathsForRange, if_neg notEmpty]
  dsimp only
  rw [if_neg notOutside,
    computeMerkleRootAndPath_of_occupied represents (rangeEnd - 1) (some .right) (by omega) (by omega)]
  rfl

/-- The cache and the right part of the path to the last leaf of a range verify the range
against the root. -/
theorem verifyRangeMerkleProof_range {t : MiniMerkleTree H} {leaves : List H}
    {minTreeSize depth : Nat} (represents : Represents hasher t leaves minTreeSize depth)
    {rangeEnd : Nat} (positive : 0 < rangeEnd) (inside : rangeEnd ≤ t.hashes.length) :
    verifyRangeMerkleProof hasher.compress (t.hashesPrefix rangeEnd) t.startIndex t.cache
        ((List.range depth).map (expectedEntry hasher leaves (some .right) (t.startIndex + (rangeEnd - 1)))) =
      some (paddedRoot hasher leaves depth) := by
  have startLe := represents.start_le
  have lengthHashes := represents.length_hashes
  have fits := represents.length_le
  have below : t.startIndex < 2 ^ depth := by omega
  have items := represents.cache_eq_map (by omega)
  have initial : t.hashesPrefix rangeEnd =
      (List.range' t.startIndex rangeEnd).map (nodeOf hasher leaves 0) := by
    rw [MiniMerkleTree.hashesPrefix, represents.hashes_eq, take_drop_eq_range' hasher (by omega)]
  have sameLength : ¬ t.cache.length ≠ ((List.range depth).map
      (expectedEntry hasher leaves (some .right) (t.startIndex + (rangeEnd - 1)))).length := by
    rw [items, List.length_map, List.length_map]
    exact fun differ => differ rfl
  generalize lastEq : t.startIndex + (rangeEnd - 1) = last at sameLength
  have lastLt : last < leaves.length := by omega
  -- the leaves of the range are the run of height 0 from the start to the last one
  have start : (t.hashesPrefix rangeEnd, t.startIndex) = rangeRun hasher leaves t.startIndex last 0 := by
    rw [rangeRun, initial, Nat.pow_zero, Nat.div_one, Nat.div_one,
      show last + 1 - t.startIndex = rangeEnd by omega]
  have top : rangeRun hasher leaves t.startIndex last depth = ([paddedRoot hasher leaves depth], 0) := by
    rw [rangeRun, Nat.div_eq_of_lt below, Nat.div_eq_of_lt (by omega), Nat.sub_zero, List.range'_one,
      List.map_singleton, nodeOf_height_zero]
  rw [verifyRangeMerkleProof, if_neg sameLength, items, List.zip_map', start,
    foldlM_verifyRangeLevel hasher (by omega) lastLt depth, top]
  rfl

/-! ### Runs of the operations -/

variable (hasher) in
/-- What a caller sees of `t`: the padded tree of height `depth` over all `leaves`, of the least
size for them and `minTreeSize`. Its root, proofs of inclusion and range proofs verify against
the padded root, and a trim within the untrimmed leaves fails only with no leaf left and the
start at either end of the tree. -/
structure PaddedView (t : MiniMerkleTree H) (leaves : List H) (minTreeSize depth : Nat) : Prop where
  size_eq : t.binaryTreeSize = 2 ^ depth
  least : IsTreeDepth (max minTreeSize leaves.length) depth
  length_eq : t.length = leaves.length
  root_eq : t.merkleRoot hasher = some (paddedRoot hasher leaves depth)
  path_eq : ∀ index < t.hashes.length, t.merkleRootAndPath hasher index =
    some (paddedRoot hasher leaves depth, inclusionPath hasher leaves depth (t.startIndex + index))
  path_verifies : ∀ index (inside : index < t.hashes.length),
    foldMerklePath hasher.compress t.hashes[index] (t.startIndex + index)
      (inclusionPath hasher leaves depth (t.startIndex + index)) = paddedRoot hasher leaves depth
  range_verifies : ∀ rangeEnd, 0 < rangeEnd → rangeEnd ≤ t.hashes.length → ∃ startPath endPath,
    t.merkleRootAndPathsForRange hasher rangeEnd =
      some (paddedRoot hasher leaves depth, startPath, endPath) ∧
    verifyRangeMerkleProof hasher.compress (t.hashesPrefix rangeEnd) t.startIndex startPath endPath =
      some (paddedRoot hasher leaves depth)
  trimStart_isSome : ∀ count ≤ t.hashes.length, (t.trimStart hasher count).isSome ↔
    ¬ (t.hashes = [] ∧ (t.startIndex = 0 ∨ t.startIndex = t.binaryTreeSize))

theorem Represents.paddedView {t : MiniMerkleTree H} {leaves : List H} {minTreeSize depth : Nat}
    (represents : Represents hasher t leaves minTreeSize depth) :
    PaddedView hasher t leaves minTreeSize depth := by
  have startLe := represents.start_le
  have lengthHashes := represents.length_hashes
  have fits := represents.length_le
  refine ⟨represents.size_eq, represents.least, ?_, merkleRoot_eq represents,
    fun _ inside => merkleRootAndPath_eq represents inside, fun index inside => ?_,
    fun _ positive inside => ⟨_, _, merkleRootAndPathsForRange_eq represents positive inside,
      verifyRangeMerkleProof_range represents positive inside⟩,
    fun _ enough => trimStart_isSome_iff represents enough⟩
  · rw [MiniMerkleTree.length, lengthHashes]
    omega
  · rw [represents.getElem_hashes inside]
    exact foldMerklePath_inclusionPath leaves (by omega)

variable (hasher) in
/-- The trees a run of the operations builds, with all the leaves it was given: `from_hashes`,
then any `push_hash`, and any `trim_start` that returns. -/
inductive Reachable (minTreeSize : Option Nat) : MiniMerkleTree H → List H → Prop
  | built {hashes : List H} {t : MiniMerkleTree H} :
      fromHashes hashes minTreeSize = some t → Reachable minTreeSize t hashes
  | pushed {t : MiniMerkleTree H} {leaves : List H} (leafHash : H) :
      Reachable minTreeSize t leaves → Reachable minTreeSize (t.pushHash leafHash) (leaves ++ [leafHash])
  | trimmed {t trimmed : MiniMerkleTree H} {leaves : List H} (count : Nat) :
      Reachable minTreeSize t leaves → t.trimStart hasher count = some trimmed →
        Reachable minTreeSize trimmed leaves

/-- Every operation keeps the invariant, so every tree of a run represents its leaves. -/
theorem Reachable.represents {minTreeSize : Option Nat} {t : MiniMerkleTree H} {leaves : List H}
    (reachable : Reachable hasher minTreeSize t leaves) :
    ∃ depth, Represents hasher t leaves (minTreeSize.getD 0) depth := by
  induction reachable with
  | built built => exact fromHashes_represents hasher built
  | pushed leafHash _ ih =>
    obtain ⟨depth, represents⟩ := ih
    exact pushHash_represents represents leafHash
  | trimmed count _ trims ih =>
    obtain ⟨depth, represents⟩ := ih
    exact ⟨depth, represents.trimStart trims⟩

/-- A tree built by any run of the operations is observably the padded tree over all the leaves
it was given. -/
theorem reachable_paddedView {minTreeSize : Option Nat} {t : MiniMerkleTree H} {leaves : List H}
    (reachable : Reachable hasher minTreeSize t leaves) :
    ∃ depth, PaddedView hasher t leaves (minTreeSize.getD 0) depth := by
  obtain ⟨depth, represents⟩ := reachable.represents
  exact ⟨depth, represents.paddedView⟩

end Padded

/-- A hasher over numbers: the sum, with empty subtrees of hash `0`. -/
def sumHasher : HashEmptySubtree Nat where
  compress a b := a + b
  emptySubtreeHash _ := 0
  emptySubtreeHash_succ _ := rfl

theorem reachable_paddedView_pushed :
    Reachable sumHasher none ((⟨[1, 2, 3], 4, 0, [none, none]⟩ : MiniMerkleTree Nat).pushHash 4)
        ([1, 2, 3] ++ [4]) ∧
      ∃ depth, PaddedView sumHasher ((⟨[1, 2, 3], 4, 0, [none, none]⟩ : MiniMerkleTree Nat).pushHash 4)
        ([1, 2, 3] ++ [4]) 0 depth :=
  have reachable : Reachable sumHasher none
      ((⟨[1, 2, 3], 4, 0, [none, none]⟩ : MiniMerkleTree Nat).pushHash 4) ([1, 2, 3] ++ [4]) :=
    .pushed 4 (.built rfl)
  ⟨reachable, reachable_paddedView reachable⟩

end ZksyncEra.MiniMerkle
