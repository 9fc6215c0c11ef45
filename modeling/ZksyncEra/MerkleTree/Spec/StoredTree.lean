import ZksyncEra.MerkleTree.Spec.TreeHash

/-!
When a stored AR16MT node stands for a part of the contents.

A position is a key prefix (`Nibbles`). A leaf at a position holds the only present key below
it; an internal node has a child reference for exactly the nibbles below which keys are
present, and each reference names a stored node of the stated type, with the stated hash, that
stands for the contents below the child position. `Holds.hash_eq` is the point of the
definition: such a node hashes to the subtree of the complete binary tree under its position.
Holding depends on the store only through the nodes it reaches, and on the contents only below
the position (`Holds.mono`, `Holds.congr`).
-/

namespace ZksyncEra.MerkleTree

open Nibbles

/-- `key` lies below the position `nibbles`. -/
def Under (key : Key) (nibbles : Nibbles) : Prop :=
  Nibbles.new key nibbles.nibbleCount = nibbles

instance (key : Key) (nibbles : Nibbles) : Decidable (Under key nibbles) :=
  inferInstanceAs (Decidable (_ = _))

/-- Node storage as the tree reads it: the node stored under a versioned key. -/
abbrev NodeStore := NodeKey → Option Node

/-! ### Positions -/

theorem under_new (key : Key) (n : Nat) : Under key (new key n) := rfl

theorem under_new_iff {key key' : Key} {n : Nat} (hn : n ≤ 64) :
    Under key' (new key n) ↔ prefixValue key' n = prefixValue key n :=
  new_eq_new_iff_prefixValue hn

/-- The child of a key prefix at nibble `j` is the prefix of the keys below it with digit `j`. -/
theorem exists_push {key : Key} {nibbles : Nibbles} (under : Under key nibbles)
    (hn : nibbles.nibbleCount < 64) {j : UInt8} (hj : j.toNat < 16) :
    ∃ child, nibbles.push j = some child ∧ child.nibbleCount = nibbles.nibbleCount + 1 ∧
      ∀ key', Under key' child ↔ Under key' nibbles ∧ nibble key' nibbles.nibbleCount = j := by
  obtain ⟨key', samePrefix, digitJ⟩ := exists_key_with_digit key hn hj
  have nibbleJ : nibble key' nibbles.nibbleCount = j := by
    apply UInt8.toNat_inj.mp
    rw [nibble_toNat key' hn, digitJ]
  refine ⟨new key' (nibbles.nibbleCount + 1), ?_, rfl, ?_⟩
  · rw [← under, ← samePrefix, ← nibbleJ, new_nibbleCount, push_new key' hn]
  · intro key''
    unfold Under
    rw [new_nibbleCount, new_succ_eq_new_succ_iff hn, samePrefix, under, digitJ,
      ← nibble_toNat key'' hn, UInt8.toNat_inj]

theorem push_nibbleCount {nibbles child : Nibbles} {j : UInt8}
    (pushed : nibbles.push j = some child) :
    child.nibbleCount = nibbles.nibbleCount + 1 ∧ nibbles.nibbleCount ≠ 64 := by
  unfold push at pushed
  split at pushed
  · cases pushed
  · cases pushed
    exact ⟨rfl, by unfold KEY_SIZE at *; omega⟩

/-- The keys below a child position are those below the parent with the child's nibble. -/
theorem under_push_iff {key : Key} {nibbles child : Nibbles} (under : Under key nibbles)
    (hn : nibbles.nibbleCount < 64) {j : UInt8} (hj : j.toNat < 16)
    (pushed : nibbles.push j = some child) (key' : Key) :
    Under key' child ↔ Under key' nibbles ∧ nibble key' nibbles.nibbleCount = j := by
  obtain ⟨child', pushed', _, underChild⟩ := exists_push under hn hj
  rw [pushed] at pushed'
  cases pushed'
  exact underChild key'

/-- The parent of a key prefix is one nibble shorter. -/
theorem splitLast_of_under {key : Key} {nibbles : Nibbles} (under : Under key nibbles)
    {n : Nat} (count : nibbles.nibbleCount = n + 1) (hn : n < 64) :
    nibbles.splitLast = some (new key n, nibble key n) := by
  rw [← under, count, splitLast_new key hn]

/-- Splitting a child position gives back its parent and nibble. -/
theorem splitLast_of_push {key : Key} {nibbles child : Nibbles} (under : Under key nibbles)
    (hn : nibbles.nibbleCount < 64) {j : UInt8} (hj : j.toNat < 16)
    (pushed : nibbles.push j = some child) : child.splitLast = some (nibbles, j) := by
  obtain ⟨child', pushed', count, underChild⟩ := exists_push under hn hj
  rw [pushed] at pushed'
  cases pushed'
  obtain ⟨key', samePrefix, digitJ⟩ := exists_key_with_digit key hn hj
  have nibbleJ : nibble key' nibbles.nibbleCount = j :=
    UInt8.toNat_inj.mp (by rw [nibble_toNat key' hn, digitJ])
  have parent : new key' nibbles.nibbleCount = nibbles := samePrefix.trans under
  rw [splitLast_of_under ((underChild key').mpr ⟨parent, nibbleJ⟩) count hn, parent, nibbleJ]

/-- The last nibble of a key prefix is a nibble. -/
theorem nibble_lt_of_splitLast {key : Key} {nibbles parent : Nibbles} (under : Under key nibbles)
    (depth : nibbles.nibbleCount ≤ 64) {j : UInt8}
    (split : nibbles.splitLast = some (parent, j)) : j.toNat < 16 := by
  obtain ⟨n, count⟩ : ∃ n, nibbles.nibbleCount = n + 1 :=
    Nat.exists_eq_succ_of_ne_zero fun zero => by simp [splitLast, zero] at split
  rw [splitLast_of_under under count (by omega), Option.some.injEq, Prod.mk.injEq] at split
  rw [← split.2]
  exact nibble_lt key (by omega)

/-- Pushing the last nibble back onto the parent gives the position again. -/
theorem push_of_splitLast {key : Key} {nibbles parent : Nibbles} (under : Under key nibbles)
    (depth : nibbles.nibbleCount ≤ 64) {j : UInt8}
    (split : nibbles.splitLast = some (parent, j)) : parent.push j = some nibbles := by
  obtain ⟨n, count⟩ : ∃ n, nibbles.nibbleCount = n + 1 :=
    Nat.exists_eq_succ_of_ne_zero fun zero => by simp [splitLast, zero] at split
  rw [splitLast_of_under under count (by omega)] at split
  cases split
  rw [push_new key (by omega), ← count, under]

/-! ### Holding nodes -/

variable (H : HashTree) (store : NodeStore) (contents : Contents)

/-- A leaf at `nibbles` holds the only present key below that position. -/
structure LeafHolds (nibbles : Nibbles) (leaf : LeafNode) : Prop where
  under : Under leaf.fullKey nibbles
  depth_le : nibbles.nibbleCount ≤ 64
  found : contents leaf.fullKey = some (leaf.valueHash, leaf.leafIndex)
  only : ∀ key, Under key nibbles → (contents key).isSome → key = leaf.fullKey

/-- No present key lies below child `j` of `nibbles`. -/
def VacantChild (nibbles : Nibbles) (j : UInt8) : Prop :=
  ∀ key, Under key nibbles → nibble key nibbles.nibbleCount = j → contents key = none

/-- `Holds nibbles node`: the node stored at `nibbles` stands for the contents below it, with
correct child references all the way down. -/
inductive Holds : Nibbles → Node → Prop
  | leaf {nibbles : Nibbles} {leaf : LeafNode} (holds : LeafHolds contents nibbles leaf) :
      Holds nibbles (.leaf leaf)
  | internal {nibbles : Nibbles} {node : InternalNode}
      (isPrefix : ∃ key, Under key nibbles)
      (depth_lt : nibbles.nibbleCount < 64)
      (nonempty : ∃ j : UInt8, j.toNat < 16 ∧ (node.childRef j).isSome)
      (vacant : ∀ j : UInt8, j.toNat < 16 → node.childRef j = none → VacantChild contents nibbles j)
      (stored : ∀ j : UInt8, j.toNat < 16 → ∀ ref, node.childRef j = some ref →
        ∃ child childNode, nibbles.push j = some child ∧
          store (child.withVersion ref.version) = some childNode ∧
          childNode.isLeaf = ref.isLeaf ∧ ref.hash = childNode.hash H (4 * child.nibbleCount))
      (children : ∀ j : UInt8, j.toNat < 16 → ∀ ref, node.childRef j = some ref →
        ∀ child childNode, nibbles.push j = some child →
          store (child.withVersion ref.version) = some childNode → Holds child childNode) :
      Holds nibbles (.internal node)

/-- A child reference that the store backs with a holding node of the right type and hash. -/
def StoredChild (child : Nibbles) (ref : ChildRef) : Prop :=
  ∃ childNode, store (child.withVersion ref.version) = some childNode ∧
    childNode.isLeaf = ref.isLeaf ∧ ref.hash = childNode.hash H (4 * child.nibbleCount) ∧
    Holds H store contents child childNode

variable {H store contents}

theorem Holds.isPrefix {nibbles : Nibbles} {node : Node} (holds : Holds H store contents nibbles node) :
    ∃ key, Under key nibbles := by
  cases holds with
  | leaf leafHolds => exact ⟨_, leafHolds.under⟩
  | internal isPrefix => exact isPrefix

theorem Holds.depth_le {nibbles : Nibbles} {node : Node} (holds : Holds H store contents nibbles node) :
    nibbles.nibbleCount ≤ 64 := by
  cases holds with
  | leaf leafHolds => exact leafHolds.depth_le
  | internal _ depth_lt => exact le_of_lt depth_lt

/-- A holding node hashes to the subtree of the complete binary tree under its position. -/
theorem Holds.hash_eq {nibbles : Nibbles} {node : Node} (holds : Holds H store contents nibbles node)
    {key : Key} (under : Under key nibbles) :
    node.hash H (4 * nibbles.nibbleCount) =
      prefixHash H contents (prefixValue key nibbles.nibbleCount) nibbles.nibbleCount := by
  induction holds generalizing key with
  | @leaf nibbles leaf leafHolds =>
    -- a leaf is the subtree with a single present key
    have samePrefix : prefixValue key nibbles.nibbleCount =
        prefixValue leaf.fullKey nibbles.nibbleCount := by
      rw [← under_new_iff leafHolds.depth_le,
        show new leaf.fullKey nibbles.nibbleCount = nibbles from leafHolds.under]
      exact under
    rw [samePrefix, prefixHash_of_single H contents leafHolds.depth_le leafHolds.found]
    · exact LeafNode.hash_eq_foldPath H leaf _
    · intro key' prefixEq present
      apply leafHolds.only key' _ present
      rw [← leafHolds.under, Under, new_nibbleCount, new_eq_new_iff_prefixValue leafHolds.depth_le,
        prefixEq]
  | @internal nibbles node _ depth_lt _ vacant stored children ih =>
    -- an internal node is the tree of height 4 over its 16 child subtrees
    have fits : 4 * nibbles.nibbleCount + 4 ≤ TREE_DEPTH := by rw [TREE_DEPTH_eq]; omega
    have hp := prefixValue_lt key (le_of_lt depth_lt)
    have childLt : ∀ j < 16, 16 * prefixValue key nibbles.nibbleCount + j <
        2 ^ (4 * (nibbles.nibbleCount + 1)) := by
      intro j hj
      rw [show 4 * (nibbles.nibbleCount + 1) = 4 * nibbles.nibbleCount + 4 by ring, Nat.pow_add,
        show (2 : Nat) ^ 4 = 16 from rfl]
      omega
    rw [Node.hash, InternalNode.hash_eq_root H node fits, prefixHash_eq_root H contents _ depth_lt]
    apply Merkle.root_congr
    intro j hj
    have small : j < 16 := by simpa using hj
    have jNat : j.toUInt8.toNat = j := by
      rw [Nat.toUInt8_eq, UInt8.toNat_ofNat_of_lt' (by unfold UInt8.size; omega)]
    have jLt : j.toUInt8.toNat < 16 := by rw [jNat]; exact small
    obtain ⟨child, pushed, childCount, underChild⟩ := exists_push under depth_lt jLt
    cases found : node.childRef j.toUInt8 with
    | none =>
      rw [Option.map_none, Option.getD_none,
        prefixHash_of_vacant H contents (by omega) (childLt j small)]
      · rw [show TREE_DEPTH - 4 * nibbles.nibbleCount - 4 =
          TREE_DEPTH - 4 * (nibbles.nibbleCount + 1) by omega]
      · intro key' prefixEq
        have parent : prefixValue key' nibbles.nibbleCount = prefixValue key nibbles.nibbleCount ∧
            digit key' nibbles.nibbleCount = j := by
          rw [prefixValue_succ key' depth_lt] at prefixEq
          have := digit_lt key' nibbles.nibbleCount
          omega
        apply vacant _ jLt found key'
        · exact ((new_eq_new_iff_prefixValue (le_of_lt depth_lt)).mpr parent.1).trans under
        · apply UInt8.toNat_inj.mp
          rw [nibble_toNat key' depth_lt, parent.2, jNat]
    | some ref =>
      obtain ⟨child', childNode, pushed', inStore, _, hashEq⟩ := stored _ jLt ref found
      rw [pushed] at pushed'
      cases pushed'
      have childHolds := children _ jLt ref found _ _ pushed inStore
      -- a key below the child position carries the child's prefix value `16 * p + j`
      obtain ⟨key', underKey'⟩ := childHolds.isPrefix
      have parentOf := (underChild key').mp underKey'
      have digitJ : digit key' nibbles.nibbleCount = j := by
        rw [← nibble_toNat key' depth_lt, parentOf.2, jNat]
      have childPrefix : prefixValue key' (nibbles.nibbleCount + 1) =
          16 * prefixValue key nibbles.nibbleCount + j := by
        rw [prefixValue_succ key' depth_lt, digitJ,
          (new_eq_new_iff_prefixValue (le_of_lt depth_lt)).mp (parentOf.1.trans under.symm)]
      rw [Option.map_some, Option.getD_some, hashEq, ih _ jLt ref found _ _ pushed inStore underKey',
        childCount, childPrefix]

/-- Holding only reads the nodes it reaches: a larger store keeps it. -/
theorem Holds.mono {store' : NodeStore}
    (extends_ : ∀ key node, store key = some node → store' key = some node)
    {nibbles : Nibbles} {node : Node} (holds : Holds H store contents nibbles node) :
    Holds H store' contents nibbles node := by
  induction holds with
  | leaf leafHolds => exact .leaf leafHolds
  | internal isPrefix depth_lt nonempty vacant stored _ ih =>
    refine .internal isPrefix depth_lt nonempty vacant (fun j hj ref found => ?_)
      (fun j hj ref found child childNode pushed inStore' => ?_)
    · obtain ⟨child, childNode, pushed, inStore, isLeaf, hashEq⟩ := stored j hj ref found
      exact ⟨child, childNode, pushed, extends_ _ _ inStore, isLeaf, hashEq⟩
    · -- the larger store has the same child where the smaller one has it
      obtain ⟨child', childNode', pushed', inStore, -, -⟩ := stored j hj ref found
      rw [pushed] at pushed'
      cases pushed'
      rw [extends_ _ _ inStore] at inStore'
      cases inStore'
      exact ih j hj ref found _ _ pushed inStore

/-- Holding survives reading the store through `Clone`: a clone keeps the child references, the
type and the hash of a node. -/
theorem Holds.map_clone {store' : NodeStore} (cloned : ∀ key, store' key = (store key).map Node.clone)
    {nibbles : Nibbles} {node : Node} (holds : Holds H store contents nibbles node) :
    Holds H store' contents nibbles node.clone := by
  induction holds with
  | leaf leafHolds => exact .leaf leafHolds
  | internal isPrefix depth_lt nonempty vacant stored _ ih =>
    refine .internal isPrefix depth_lt nonempty vacant (fun j hj ref found => ?_)
      (fun j hj ref found child childNode pushed inStore' => ?_)
    · obtain ⟨child, childNode, pushed, inStore, isLeaf, hashEq⟩ := stored j hj ref found
      exact ⟨child, childNode.clone, pushed, by rw [cloned, inStore]; rfl, by simpa using isLeaf,
        by simpa using hashEq⟩
    · -- the node read through the clone is the clone of the stored one
      obtain ⟨child', childNode', pushed', inStore, -, -⟩ := stored j hj ref found
      rw [pushed] at pushed'
      cases pushed'
      rw [cloned, inStore, Option.map_some, Option.some.injEq] at inStore'
      subst inStore'
      exact ih j hj ref found _ _ pushed inStore

/-- Holding only reads the contents below the position. -/
theorem Holds.congr {contents' : Contents} {nibbles : Nibbles} {node : Node}
    (holds : Holds H store contents nibbles node)
    (same : ∀ key, Under key nibbles → contents' key = contents key) :
    Holds H store contents' nibbles node := by
  induction holds with
  | leaf leafHolds =>
    refine .leaf ⟨leafHolds.under, leafHolds.depth_le, ?_, fun key under present => ?_⟩
    · rw [same _ leafHolds.under, leafHolds.found]
    · rw [same key under] at present
      exact leafHolds.only key under present
  | internal isPrefix depth_lt nonempty vacant stored _ ih =>
    obtain ⟨key₀, under₀⟩ := isPrefix
    refine .internal ⟨key₀, under₀⟩ depth_lt nonempty (fun j hj found key under digitJ => ?_) stored
      (fun j hj ref found child childNode pushed inStore => ?_)
    · rw [same key under]
      exact vacant j hj found key under digitJ
    · -- the keys below the child lie below this node
      exact ih j hj ref found _ _ pushed inStore fun key under =>
        same key ((under_push_iff under₀ depth_lt hj pushed key).mp under).1

/-- A holding node stands for at least one present key. -/
theorem Holds.exists_present {nibbles : Nibbles} {node : Node}
    (holds : Holds H store contents nibbles node) :
    ∃ key, Under key nibbles ∧ (contents key).isSome := by
  induction holds with
  | leaf leafHolds => exact ⟨_, leafHolds.under, by rw [leafHolds.found]; rfl⟩
  | internal isPrefix depth_lt nonempty _ stored _ ih =>
    obtain ⟨key₀, under₀⟩ := isPrefix
    obtain ⟨j, hj, present⟩ := nonempty
    obtain ⟨ref, found⟩ := Option.isSome_iff_exists.mp present
    obtain ⟨child, childNode, pushed, inStore, -, -⟩ := stored j hj ref found
    obtain ⟨key, underChild, isPresent⟩ := ih j hj ref found child childNode pushed inStore
    exact ⟨key, ((under_push_iff under₀ depth_lt hj pushed key).mp underChild).1, isPresent⟩

/-! ### Roots -/

variable (H store contents)

/-- A root stands for the contents: the empty root when nothing is present, otherwise a node
holding at the empty position. -/
def RootHolds : Root → Prop
  | .empty => ∀ key, contents key = none
  | .filled _ _ node => Holds H store contents Nibbles.EMPTY node

variable {H store contents}

/-- A root standing for the contents hashes to the complete tree over them. -/
theorem RootHolds.hash_eq {root : Root} (holds : RootHolds H store contents root) :
    root.hash H = treeHash H contents := by
  cases root with
  | empty =>
    have vacant : ∀ key : Key, prefixValue key 0 = 0 → contents key = none :=
      fun key _ => holds key
    rw [Root.hash, HashTree.emptyTreeHash, ← prefixHash_zero,
      prefixHash_of_vacant H contents (Nat.zero_le 64) (by decide) vacant, Nat.mul_zero,
      Nat.sub_zero]
  | filled _ _ node =>
    have underEmpty : Under 0 Nibbles.EMPTY := new_zero 0
    have hashEq := Holds.hash_eq (H := H) holds underEmpty
    rw [Root.hash, ← prefixHash_zero]
    exact hashEq

theorem RootHolds.map_clone {store' : NodeStore}
    (cloned : ∀ key, store' key = (store key).map Node.clone) {root : Root}
    (holds : RootHolds H store contents root) : RootHolds H store' contents root.clone := by
  cases root with
  | empty => exact holds
  | filled _ _ node => exact Holds.map_clone cloned holds

theorem RootHolds.mono {store' : NodeStore}
    (extends_ : ∀ key node, store key = some node → store' key = some node) {root : Root}
    (holds : RootHolds H store contents root) : RootHolds H store' contents root := by
  cases root with
  | empty => exact holds
  | filled _ _ node => exact Holds.mono extends_ holds

end ZksyncEra.MerkleTree
