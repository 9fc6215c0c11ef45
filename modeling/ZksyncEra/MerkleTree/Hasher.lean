import ZksyncEra.MerkleTree.Types
import ZksyncEra.Merkle.CompleteTree

/-!
Tree hashing (`hasher/mod.rs`, `hasher/nodes.rs`).

The hasher is abstract: any leaf hash and any branch compression, with the empty subtree
hashes built from the vacant leaf by compression, as every implementation of the source
computes them. A leaf stored at `level` is folded up with empty siblings along the bits of its
key; an internal node hashes its 16 child slots as a binary tree of height 4 in which missing
subtrees are empty. The lemmas identify both with `Merkle.foldPath` and `Merkle.root`.

Hashing statistics (`HasherWithStats`) only count bytes and are left out.
-/

namespace ZksyncEra.MerkleTree

/-- `HashTree`: tree hashing functionality. -/
structure HashTree where
  /-- Unique name of the hasher, recorded in the tree tags. -/
  name : String
  hashLeaf : ValueHash → Nat → ValueHash
  /-- Compresses hashes in an intermediate node of a binary Merkle tree. -/
  hashBranch : ValueHash → ValueHash → ValueHash
  /-- Hash of an empty subtree with the given depth. -/
  emptySubtreeHash : Nat → ValueHash
  /-- An empty subtree compresses two empty subtrees one level lower. -/
  emptySubtreeHash_succ : ∀ depth,
    emptySubtreeHash (depth + 1) = hashBranch (emptySubtreeHash depth) (emptySubtreeHash depth)

namespace HashTree

variable (H : HashTree)

/-- Hash of the empty tree. -/
def emptyTreeHash : ValueHash :=
  H.emptySubtreeHash TREE_DEPTH

/-- `hash_optional_branch`: `None` stands for an empty subtree of depth `subtreeDepth`, and
two empty subtrees stay `None`. -/
def hashOptionalBranch (subtreeDepth : Nat) (lhs rhs : Option ValueHash) : Option ValueHash :=
  match lhs, rhs with
  | none, none => none
  | some lhs, none => some (H.hashBranch lhs (H.emptySubtreeHash subtreeDepth))
  | none, some rhs => some (H.hashBranch (H.emptySubtreeHash subtreeDepth) rhs)
  | some lhs, some rhs => some (H.hashBranch lhs rhs)

end HashTree

/-- `LeafNode::hash`: the leaf hash folded up from `level` to the root, with an empty subtree
as the sibling at every depth. -/
def LeafNode.hash (H : HashTree) (self : LeafNode) (level : Nat) : ValueHash :=
  let hashingIterations := TREE_DEPTH - level
  (List.range hashingIterations).foldl (fun hash depth =>
      let emptyTreeHash := H.emptySubtreeHash depth
      if self.fullKey.bit depth then H.hashBranch emptyTreeHash hash
      else H.hashBranch hash emptyTreeHash)
    (H.hashLeaf self.valueHash self.leafIndex)

/-- Slot `i` of a level of optional hashes. -/
def slot (hashes : Vector (Option ValueHash) 16) (i : Nat) : Option ValueHash :=
  (hashes[i]?).getD none

/-- `InternalNodeCache::set_level`; `hash_inner` only passes levels `0..=3`. -/
def InternalNodeCache.setLevel (self : InternalNodeCache) (levelInTree : Nat)
    (source : Vector (Option ValueHash) 16) : InternalNodeCache :=
  match levelInTree with
  | 1 => { self with level1 := Vector.ofFn fun i => slot source i.val }
  | 2 => { self with level2 := Vector.ofFn fun i => slot source i.val }
  | 3 => { self with level3 := Vector.ofFn fun i => slot source i.val }
  | _ => self

/-- `Box::<InternalNodeCache>::default()`. -/
def InternalNodeCache.default : InternalNodeCache :=
  ⟨Vector.replicate 2 none, Vector.replicate 4 none, Vector.replicate 8 none⟩

namespace InternalNode

/-- One round of `hash_inner`, in place: slot `i < nextLevelLen` becomes the branch over slots
`2 * i` and `2 * i + 1`. -/
def pairUp (H : HashTree) (subtreeDepth nextLevelLen : Nat)
    (levelHashes : Vector (Option ValueHash) 16) : Vector (Option ValueHash) 16 :=
  (List.range nextLevelLen).foldl (fun hashes i =>
      hashes.setIfInBounds i
        (H.hashOptionalBranch subtreeDepth (slot hashes (2 * i)) (slot hashes (2 * i + 1))))
    levelHashes

/-- `InternalNode::hash_inner`: hashes the 16 child slots of a node whose tip is at `level`,
filling the cache levels on the way if a cache is supplied. -/
def hashInner (H : HashTree) (levelHashes : Vector (Option ValueHash) 16) (level : Nat)
    (cache : Option InternalNodeCache) : ValueHash × Option InternalNodeCache :=
  let (levelHashes, _, cache) := [4, 3, 2, 1].foldl
    (fun (state : Vector (Option ValueHash) 16 × Nat × Option InternalNodeCache) levelInTree =>
      let (levelHashes, nextLevelLen, cache) := state
      let overallLevel := level + levelInTree
      -- Depth of a potential empty subtree rooted at the current level.
      let subtreeDepth := TREE_DEPTH - overallLevel
      let levelHashes := pairUp H subtreeDepth nextLevelLen levelHashes
      (levelHashes, nextLevelLen / 2, cache.map fun c => c.setLevel (levelInTree - 1) levelHashes))
    (levelHashes, 16 / 2, cache)
  ((slot levelHashes 0).getD (H.emptySubtreeHash (TREE_DEPTH - level)), cache)

/-- `InternalNode::hash`. -/
def hash (H : HashTree) (self : InternalNode) (level : Nat) : ValueHash :=
  (hashInner H self.childHashes level none).1

end InternalNode

/-- `Node::hash`. -/
def Node.hash (H : HashTree) : Node → Nat → ValueHash
  | .internal node, level => node.hash H level
  | .leaf l, level => l.hash H level

/-- `Root::hash`. -/
def Root.hash (H : HashTree) : Root → ValueHash
  | .empty => H.emptyTreeHash
  | .filled _ _ node => node.hash H 0

/-- Hashing reads the child references only, so a clone hashes the same. -/
@[simp] theorem Node.hash_clone (H : HashTree) (node : Node) (level : Nat) :
    node.clone.hash H level = node.hash H level := by
  cases node <;> rfl

@[simp] theorem Root.hash_clone (H : HashTree) (root : Root) : root.clone.hash H = root.hash H := by
  cases root <;> simp [Root.clone, Root.hash]

/-! ### Empty subtrees and optional branches -/

namespace HashTree

variable (H : HashTree)

/-- The empty subtree hashes are the complete trees over vacant leaves. -/
theorem emptySubtreeHash_eq_emptyRoot (depth : Nat) :
    H.emptySubtreeHash depth = Merkle.emptyRoot H.hashBranch (H.emptySubtreeHash 0) depth := by
  induction depth with
  | zero => rfl
  | succ depth ih => rw [H.emptySubtreeHash_succ, Merkle.emptyRoot_succ, ih]

/-- Reading `None` as the empty subtree, an optional branch is a plain branch. -/
theorem hashOptionalBranch_getD (depth : Nat) (lhs rhs : Option ValueHash) :
    (H.hashOptionalBranch depth lhs rhs).getD (H.emptySubtreeHash (depth + 1)) =
      H.hashBranch (lhs.getD (H.emptySubtreeHash depth)) (rhs.getD (H.emptySubtreeHash depth)) := by
  cases lhs <;> cases rhs <;> simp [hashOptionalBranch, H.emptySubtreeHash_succ]

theorem isSome_hashOptionalBranch_iff (depth : Nat) (lhs rhs : Option ValueHash) :
    (H.hashOptionalBranch depth lhs rhs).isSome ↔ lhs.isSome ∨ rhs.isSome := by
  cases lhs <;> cases rhs <;> simp [hashOptionalBranch]

theorem isSome_hashOptionalBranch (depth : Nat) {lhs : Option ValueHash} (rhs : Option ValueHash)
    (present : lhs.isSome) : (H.hashOptionalBranch depth lhs rhs).isSome :=
  (H.isSome_hashOptionalBranch_iff depth lhs rhs).mpr (Or.inl present)

end HashTree

/-! ### Leaves -/

theorem LeafNode.hash_eq_foldPath (H : HashTree) (self : LeafNode) (level : Nat) :
    self.hash H level =
      Merkle.foldPath H.hashBranch H.emptySubtreeHash self.fullKey.toNat
        (H.hashLeaf self.valueHash self.leafIndex) (TREE_DEPTH - level) := by
  unfold LeafNode.hash
  dsimp only
  generalize TREE_DEPTH - level = iterations
  -- the loop over `0..iterations` is the path folded up `iterations` levels
  induction iterations with
  | zero => rfl
  | succ n ih =>
    rw [List.range_succ, List.foldl_append, ih, Merkle.foldPath_succ]
    rfl

/-! ### Internal nodes -/

theorem slot_setIfInBounds (hashes : Vector (Option ValueHash) 16) {i : Nat} (hi : i < 16)
    (x : Option ValueHash) (j : Nat) :
    slot (hashes.setIfInBounds i x) j = if i = j then x else slot hashes j := by
  unfold slot
  by_cases same : i = j
  · subst same
    simp [Vector.getElem?_setIfInBounds_self_of_lt hi]
  · rw [if_neg same, Vector.getElem?_setIfInBounds_ne same]

namespace InternalNode

variable (H : HashTree)

theorem pairUp_succ (subtreeDepth n : Nat) (hashes : Vector (Option ValueHash) 16) :
    pairUp H subtreeDepth (n + 1) hashes =
      (pairUp H subtreeDepth n hashes).setIfInBounds n
        (H.hashOptionalBranch subtreeDepth (slot (pairUp H subtreeDepth n hashes) (2 * n))
          (slot (pairUp H subtreeDepth n hashes) (2 * n + 1))) := by
  rw [pairUp, List.range_succ, List.foldl_append]
  rfl

/-- The slots below `nextLevelLen` are paired up from the original slots: the in-place loop
never reads a slot it has already overwritten, since `i ≤ 2 * i`. -/
theorem slot_pairUp (subtreeDepth : Nat) {nextLevelLen : Nat} (fits : nextLevelLen ≤ 8)
    (hashes : Vector (Option ValueHash) 16) (j : Nat) :
    slot (pairUp H subtreeDepth nextLevelLen hashes) j =
      if j < nextLevelLen then
        H.hashOptionalBranch subtreeDepth (slot hashes (2 * j)) (slot hashes (2 * j + 1))
      else slot hashes j := by
  induction nextLevelLen generalizing j with
  | zero => simp [pairUp]
  | succ n ih =>
    have before : ∀ k, n ≤ k → slot (pairUp H subtreeDepth n hashes) k = slot hashes k := by
      intro k hk
      rw [ih (by omega), if_neg (by omega)]
    rw [pairUp_succ, slot_setIfInBounds _ (by omega), before (2 * n) (by omega), before (2 * n + 1) (by omega)]
    by_cases last : n = j
    · subst last
      simp
    · rw [if_neg last, ih (by omega)]
      by_cases below : j < n
      · rw [if_pos below, if_pos (by omega)]
      · rw [if_neg below, if_neg (by omega)]

/-- The four rounds of `hash_inner`, with the cache left aside. -/
theorem hashInner_fst (levelHashes : Vector (Option ValueHash) 16) (level : Nat)
    (cache : Option InternalNodeCache) :
    (hashInner H levelHashes level cache).1 =
      (slot (pairUp H (TREE_DEPTH - (level + 1)) 1 (pairUp H (TREE_DEPTH - (level + 2)) 2
        (pairUp H (TREE_DEPTH - (level + 3)) 4 (pairUp H (TREE_DEPTH - (level + 4)) 8
          levelHashes)))) 0).getD (H.emptySubtreeHash (TREE_DEPTH - level)) := by
  simp only [hashInner, List.foldl]

/-- After `t` rounds, slot `i` holds the hash of the complete subtree of height `t` over the
original slots `i * 2 ^ t, …`, reading `None` as an empty subtree. -/
def RoundsDone (depth : Nat) (original : Vector (Option ValueHash) 16) (t : Nat)
    (hashes : Vector (Option ValueHash) 16) : Prop :=
  ∀ i < 16 / 2 ^ t, (slot hashes i).getD (H.emptySubtreeHash (depth + t)) =
    Merkle.root H.hashBranch t fun x => (slot original (i * 2 ^ t + x)).getD (H.emptySubtreeHash depth)

theorem roundsDone_pairUp {depth t : Nat} (ht : t < 4) {original hashes : Vector (Option ValueHash) 16}
    (done : RoundsDone H depth original t hashes) :
    RoundsDone H depth original (t + 1) (pairUp H (depth + t) (16 / 2 ^ (t + 1)) hashes) := by
  intro i hi
  have fits : 16 / 2 ^ (t + 1) ≤ 8 := by
    rcases (show t = 0 ∨ t = 1 ∨ t = 2 ∨ t = 3 by omega) with rfl | rfl | rfl | rfl <;> decide
  have width : 16 / 2 ^ t = 2 * (16 / 2 ^ (t + 1)) := by
    rcases (show t = 0 ∨ t = 1 ∨ t = 2 ∨ t = 3 by omega) with rfl | rfl | rfl | rfl <;> rfl
  rw [slot_pairUp H _ fits, if_pos hi, ← Nat.add_assoc, H.hashOptionalBranch_getD,
    done (2 * i) (by omega), done (2 * i + 1) (by omega), Merkle.root_succ]
  -- the two halves of the subtree over slots `i * 2 ^ (t + 1), …`
  have left : ∀ x, 2 * i * 2 ^ t + x = i * 2 ^ (t + 1) + x := by
    intro x; rw [Nat.pow_succ]; ring
  have right : ∀ x, (2 * i + 1) * 2 ^ t + x = i * 2 ^ (t + 1) + (2 ^ t + x) := by
    intro x; rw [Nat.pow_succ]; ring
  simp only [left, right]

/-- `hash_inner` hashes the complete binary tree of height 4 over the 16 slots, a missing child
counting as an empty subtree of the depth below the node. -/
theorem hashInner_eq_root (levelHashes : Vector (Option ValueHash) 16) {level : Nat}
    (fits : level + 4 ≤ TREE_DEPTH) (cache : Option InternalNodeCache) :
    (hashInner H levelHashes level cache).1 =
      Merkle.root H.hashBranch 4 fun j =>
        (slot levelHashes j).getD (H.emptySubtreeHash (TREE_DEPTH - level - 4)) := by
  have start : RoundsDone H (TREE_DEPTH - level - 4) levelHashes 0 levelHashes := by
    intro i _
    simp
  have depths : ∀ t < 4, TREE_DEPTH - (level + (4 - t)) = TREE_DEPTH - level - 4 + t := by
    intro t ht; omega
  have done := roundsDone_pairUp H (by omega) (roundsDone_pairUp H (by omega)
    (roundsDone_pairUp H (by omega) (roundsDone_pairUp H (by omega) start)))
  rw [hashInner_fst, depths 0 (by omega), depths 1 (by omega), depths 2 (by omega),
    depths 3 (by omega), show TREE_DEPTH - level = TREE_DEPTH - level - 4 + 4 by omega]
  simpa using done 0 (by decide)

/-- The child slots hold the hashes in the child references. -/
theorem slot_childHashes (self : InternalNode) {j : Nat} (hj : j < 16) :
    slot self.childHashes j = (self.childRef j.toUInt8).map (·.hash) := by
  unfold childHashes
  rw [SmallMap.iter_eq]
  -- every present key below `n` has been written once, in increasing order
  have written : ∀ n ≤ 16, slot (((List.range n).filterMap fun k =>
      (self.children.get k.toUInt8).map (k.toUInt8, ·)).foldl
        (fun hashes entry => hashes.setIfInBounds entry.1.toNat (some entry.2.hash))
        (Vector.replicate 16 none)) j =
      if j < n then (self.childRef j.toUInt8).map (·.hash) else none := by
    intro n hn
    induction n with
    | zero =>
      rw [if_neg (Nat.not_lt_zero j)]
      unfold slot
      rw [List.range_zero, List.filterMap_nil, List.foldl_nil, Vector.getElem?_replicate]
      split <;> rfl
    | succ n ih =>
      rw [List.range_succ, List.filterMap_append, List.foldl_append]
      cases present : self.children.get n.toUInt8 with
      | none =>
        simp only [List.filterMap_cons, present, Option.map_none, List.filterMap_nil,
          List.foldl_nil]
        rw [ih (by omega)]
        by_cases last : j = n
        · subst last
          simp [childRef, present]
        · by_cases below : j < n
          · rw [if_pos below, if_pos (by omega)]
          · rw [if_neg below, if_neg (by omega)]
      | some childRef =>
        simp only [List.filterMap_cons, present, Option.map_some, List.filterMap_nil,
          List.foldl_cons, List.foldl_nil]
        have small : (n.toUInt8).toNat = n := by
          rw [Nat.toUInt8_eq, UInt8.toNat_ofNat_of_lt' (by unfold UInt8.size; omega)]
        rw [small, slot_setIfInBounds _ (by omega), ih (by omega)]
        by_cases last : n = j
        · subst last
          simp [InternalNode.childRef, present]
        · rw [if_neg last]
          by_cases below : j < n
          · rw [if_pos below, if_pos (by omega)]
          · rw [if_neg below, if_neg (by omega)]
  exact (written 16 (le_refl 16)).trans (if_pos hj)

/-- An internal node hashes the complete binary tree of height 4 over its child hashes, a
missing child counting as an empty subtree. -/
theorem hash_eq_root (self : InternalNode) {level : Nat} (fits : level + 4 ≤ TREE_DEPTH) :
    self.hash H level =
      Merkle.root H.hashBranch 4 fun j =>
        ((self.childRef j.toUInt8).map (·.hash)).getD (H.emptySubtreeHash (TREE_DEPTH - level - 4)) := by
  unfold InternalNode.hash
  rw [hashInner_eq_root H _ fits]
  apply Merkle.root_congr
  intro j hj
  rw [slot_childHashes self (by simpa using hj)]

end InternalNode

end ZksyncEra.MerkleTree
