import ZksyncEra.MerkleTree.Spec.Finalize
import ZksyncEra.MerkleTree.Spec.LoadAncestors

/-!
`MerkleTree::extend` over a `PatchSet`, block after block, against the reference model.

A patch set written by blocks keeps a `History`: one version for each block, whose root stands,
in the nodes of the patch set, for the map after that block. One block is one step of it
(`History.extend`): the storage for the next version starts from the last root, loads the
ancestors of the block's keys, inserts the entries and finalizes (the specs of the modules
before), and applying the patch adds the version without touching the older ones. The run over
all blocks follows by induction on the blocks.
-/

set_option linter.dupNamespace false

namespace ZksyncEra.MerkleTree

open Nibbles

/-! ### The patch set as a node store -/

namespace PatchSet

/-- The nodes of a patch set, as `try_tree_node` reads them. -/
def nodeStore (db : PatchSet) : NodeStore :=
  fun key => db.tryTreeNode key false

/-- The store already reads clones. -/
theorem nodeStore_map_clone (db : PatchSet) (key : NodeKey) :
    (db.nodeStore key).map Node.clone = db.nodeStore key := by
  simp [nodeStore, tryTreeNode, Option.map_map, Function.comp_def]

/-- `tree_nodes` of a patch set reads each requested node from its store. -/
theorem treeNodes_eq (db : PatchSet) (requests : List (NodeKey × Bool)) :
    Database.treeNodes db requests =
      some (requests.map fun request => db.nodeStore request.1) := rfl

/-- Applying the patch of a new version: the manifest is the patch's, and the versions of the
patch set are those before with the new one added. -/
theorem applyPatch_new_insert (db : PatchSet) {manifest : Manifest} (version : Nat) (root : Root)
    (nodes : HashMap NodeKey Node) (staleKeys : List NodeKey)
    (count : db.manifest.versionCount ≤ manifest.versionCount) :
    ∃ db', db.applyPatch (PatchSet.new manifest version root nodes staleKeys .insert) = .ok db' ∧
      db'.manifest = manifest ∧ ∀ v, db'.patchesByVersion.lookup v =
        if v = version then some ⟨some root, nodes⟩ else db.patchesByVersion.lookup v := by
  have kept : ¬ manifest.versionCount < db.manifest.versionCount := Nat.not_lt.mpr count
  refine ⟨_, rfl, rfl, fun v => ?_⟩
  simp only [PatchSet.new, kept, if_false, HashMap.lookup_extend, HashMap.lookup_singleton]
  by_cases same : v = version <;> simp [same]

theorem lookup_mergeStaleKeys_singleton (staleKeysByVersion : HashMap Nat (List NodeKey))
    (version : Nat) (staleKeys : List NodeKey) (u : Nat) :
    (mergeStaleKeys staleKeysByVersion (AList.singleton version staleKeys)).lookup u =
      if u = version then some ((staleKeysByVersion.lookup version).getD [] ++ staleKeys)
      else staleKeysByVersion.lookup u := by
  by_cases same : u = version
  · subst same
    simp [mergeStaleKeys, AList.singleton]
  · simp [mergeStaleKeys, AList.singleton, same]

/-- Applying the patch of a new version appends its stale keys to those of its version. -/
theorem staleKeys_applyPatch_new_insert (db : PatchSet) {manifest : Manifest} (version : Nat)
    (root : Root) (nodes : HashMap NodeKey Node) (stale : List NodeKey) {db' : PatchSet}
    (applied : db.applyPatch (PatchSet.new manifest version root nodes stale .insert) = .ok db')
    (u : Nat) :
    db'.staleKeys u = if u = version then db.staleKeys u ++ stale else db.staleKeys u := by
  simp only [applyPatch, PatchSet.new] at applied
  cases applied
  by_cases same : u = version
  · subst same
    simp [PatchSet.staleKeys, lookup_mergeStaleKeys_singleton]
  · simp [PatchSet.staleKeys, lookup_mergeStaleKeys_singleton, same]

end PatchSet

/-! ### The history of a patch set -/

/-- A patch set written by blocks with the maps `states` after them, one version each: it counts
the versions, has no patch of a later version, and the root of each version stands, in its
nodes, for the map after that block and counts its keys. -/
structure History (H : HashTree) (db : PatchSet) (states : List Reference) : Prop where
  versionCount : db.manifest.versionCount = states.length
  versions : ∀ v, (db.patchesByVersion.lookup v).isSome → v < states.length
  roots : ∀ v (h : v < states.length), ∃ root, db.tryRoot v = some root ∧
    RootHolds H db.nodeStore states[v].contents root ∧ root.leafCount = states[v].entries.length

/-- The empty patch set has no version. -/
theorem History.nil (H : HashTree) : History H default [] where
  versionCount := rfl
  versions v found := by cases found
  roots v h := absurd h (Nat.not_lt_zero v)

section Step

variable {H : HashTree} {db : PatchSet} {states : List Reference}

/-- Every node of the patch set is older than the next version. -/
theorem History.fresh (history : History H db states) :
    ∀ key node, db.nodeStore key = some node → key.version < states.length := by
  intro key node found
  apply history.versions
  cases patch : db.patchesByVersion.lookup key.version with
  | none => simp [PatchSet.nodeStore, PatchSet.tryTreeNode, patch] at found
  | some _ => rfl

/-- The storage for the next version starts from the root of the last block. -/
theorem History.baseRoot (history : History H db states) :
    ∃ root, (Storage.new db H states.length true).updater =
        WorkingPatchSet.new states.length root ∧
      (Storage.new db H states.length true).leafCount = root.leafCount ∧
      RootHolds H db.nodeStore (states.getLastD ∅).contents root ∧
      root.leafCount = (states.getLastD ∅).entries.length := by
  rcases List.eq_nil_or_concat states with rfl | ⟨before, last, rfl⟩
  · -- no version yet: the tree is empty
    refine ⟨.empty, rfl, rfl, fun key => ?_, rfl⟩
    rfl
  · rw [List.concat_eq_append] at history ⊢
    obtain ⟨root, found, holds, count⟩ := history.roots before.length (by simp)
    have isLast : (before ++ [last])[before.length] = last := by simp
    rw [isLast] at holds count
    refine ⟨root, ?_, ?_, by rwa [List.getLastD_concat], by rw [List.getLastD_concat, count]⟩ <;>
      simp [Storage.new, Database.tryRoot, found]

/-- A map with a present key has a key. -/
theorem Reference.length_pos_of_isSome {reference : Reference} {key : Key}
    (present : (reference.contents key).isSome) : 0 < reference.entries.length := by
  by_contra empty
  have vacant := (Reference.contents_eq_none_iff reference).mpr (by omega)
  rw [vacant key] at present
  cases present

/-- The root of a new version counts the keys of the map it stands for. -/
theorem RootHolds.leafCount_eq {store : NodeStore} {reference : Reference} {root : Root}
    {leafCount : Nat} (holds : RootHolds H store reference.contents root)
    (count : root = .empty ∨ root.leafCount = leafCount) (sameCount : leafCount = reference.entries.length) :
    root.leafCount = reference.entries.length := by
  rcases count with rfl | count
  · exact ((Reference.contents_eq_none_iff reference).mp holds).symm
  · rw [count, sameCount]

/-- One block over a patch set with a history: `MerkleTree::extend` returns the reference output
of the block over the map of the last version, and the patch set gains the version of the map
after the block. -/
theorem History.extend (history : History H db states) (entries : List TreeEntry) :
    ∃ db', (MerkleTree.mk db H).extend entries =
        .ok (((states.getLastD ∅).output H entries).1, ⟨db', H⟩) ∧
      History H db' (states ++ [((states.getLastD ∅).output H entries).2]) := by
  obtain ⟨root, updater, leafCount, rootHolds, rootCount⟩ := history.baseRoot
  set reference := states.getLastD ∅
  -- load the ancestors of the block's keys
  obtain ⟨ps, W, loaded, rootVersion, isLoaded⟩ := loadAncestors_spec
    (PatchSet.treeNodes_eq db) history.fresh rootHolds (entries.map (·.key))
  have length : ps.length = entries.length := by simpa using isLoaded.length
  -- insert the entries
  obtain ⟨W', inserted, done⟩ :=
    insertEntries_spec (entries.zip ps) reference W (isLoaded.insertInv rootVersion)
  rw [List.map_fst_zip (by omega)] at inserted done
  -- finalize
  have ws : WsInv H db.nodeStore (reference.writeBlock entries).2.contents W'.getWorking W'.rootVersion fun _ => False := by
    rw [done.rootVersion]
    exact done.ws.weaken fun q ⟨_, _, member, _⟩ => nomatch member
  obtain ⟨root', patched, staleKeys, finalized, holds', count', -⟩ :=
    finalize_spec W' (Storage.new db H states.length true).manifest (reference.writeBlock entries).2.entries.length ws
      (by rw [done.rootVersion]; exact history.fresh)
      (fun key present => Reference.length_pos_of_isSome present)
  rw [done.rootVersion] at finalized holds'
  have extended : (Storage.new db H states.length true).extend entries = some ((reference.output H entries).1,
      PatchSet.new (Storage.new db H states.length true).manifest states.length root' patched staleKeys .insert) := by
    have sameDb : (Storage.new db H states.length true).db = db := rfl
    have operation : (Storage.new db H states.length true).operation = .insert := rfl
    have hasher : (Storage.new db H states.length true).hasher = H := rfl
    simp only [Storage.extend, updater, sameDb, loaded, leafCount, rootCount, inserted,
      Storage.finalize, operation, hasher, finalized, Reference.output, Option.bind_eq_bind,
      Option.bind_some, Option.pure_def]
  -- apply the patch
  have count : db.manifest.versionCount ≤ (Storage.new db H states.length true).manifest.versionCount := by
    simp [Storage.new, history.versionCount]
  obtain ⟨db', applied, manifest', lookups⟩ :=
    db.applyPatch_new_insert states.length root' patched staleKeys count
  refine ⟨db', ?_, ?_⟩
  · have next : ((Database.tryManifest db).getD default).versionCount = states.length :=
      history.versionCount
    have appliedDb : Database.applyPatch db (PatchSet.new (Storage.new db H states.length true).manifest
        states.length root' patched staleKeys .insert) = .ok db' := applied
    simp only [MerkleTree.extend, next, extended, appliedDb]
    rfl
  · -- the new version's nodes are the patch's, and the older ones stay
    have storeEq : ∀ key, db'.nodeStore key =
        (withPatch db.nodeStore states.length patched key).map Node.clone := by
      intro key
      by_cases same : key.version = states.length
      · simp [PatchSet.nodeStore, PatchSet.tryTreeNode, withPatch, lookups, same]
      · simp only [withPatch, if_neg same, PatchSet.nodeStore_map_clone]
        simp [PatchSet.nodeStore, PatchSet.tryTreeNode, lookups, same]
    have extends_ : ∀ key node, db.nodeStore key = some node → db'.nodeStore key = some node := by
      intro key node found
      rw [storeEq, withPatch, if_neg (Nat.ne_of_lt (history.fresh key node found)),
        PatchSet.nodeStore_map_clone, found]
    refine ⟨by simp [manifest', Storage.new], fun v present => ?_,
      fun v h => ?_⟩
    · rw [lookups] at present
      rw [List.length_append, List.length_singleton]
      split at present
      · omega
      · have := history.versions v present
        omega
    · rw [List.length_append, List.length_singleton] at h
      rcases Nat.lt_succ_iff_lt_or_eq.mp h with old | rfl
      · obtain ⟨root, found, holds, count⟩ := history.roots v old
        rw [List.getElem_append_left old]
        refine ⟨root, ?_, holds.mono extends_, count⟩
        rw [PatchSet.tryRoot, lookups, if_neg (Nat.ne_of_lt old)]
        exact found
      · have isLast : (states ++ [(reference.output H entries).2])[states.length] =
            (reference.writeBlock entries).2 := by simp [Reference.output]
        rw [isLast]
        refine ⟨root'.clone, by simp [PatchSet.tryRoot, lookups], holds'.map_clone storeEq,
          by rw [Root.leafCount_clone]; exact holds'.leafCount_eq count' rfl⟩

end Step

/-! ### Blocks one after another -/

/-- `MerkleTree::extend` applied to the blocks one after another, with the outputs in order. -/
def MerkleTree.extendBlocks {DB : Type} [Database DB] :
    MerkleTree DB → List (List TreeEntry) → Except String (List BlockOutput × MerkleTree DB)
  | tree, [] => pure ([], tree)
  | tree, entries :: blocks => do
    let (output, tree) ← tree.extend entries
    let (outputs, tree) ← extendBlocks tree blocks
    pure (output :: outputs, tree)

/-- The maps after each of the blocks. -/
def Reference.states (reference : Reference) (blocks : List (List TreeEntry)) :
    List Reference :=
  (blocks.scanl (fun reference entries => (reference.writeBlock entries).2) reference).tail

theorem Reference.states_cons (reference : Reference) (entries : List TreeEntry)
    (blocks : List (List TreeEntry)) :
    reference.states (entries :: blocks) =
      (reference.writeBlock entries).2 :: (reference.writeBlock entries).2.states blocks := by
  cases blocks <;> simp [states]

/-- The map after block `i` is the map after the first `i + 1` blocks. -/
theorem Reference.getElem_states (reference : Reference) (blocks : List (List TreeEntry)) {i : Nat}
    (h : i < (reference.states blocks).length) :
    (reference.states blocks)[i] = reference.afterBlocks (blocks.take (i + 1)) := by
  simp [states, afterBlocks]

section Run

variable {H : HashTree}

/-- The run over blocks: each block's output is the reference output over the map before it, and
the patch set gains the version of each map after a block. The induction is on the blocks, with
`History.extend` as the step. -/
theorem History.extendBlocks (blocks : List (List TreeEntry)) :
    ∀ {db : PatchSet} {states : List Reference}, History H db states →
      ∃ db', (MerkleTree.mk db H).extendBlocks blocks =
          .ok ((states.getLastD ∅).outputs H blocks, ⟨db', H⟩) ∧
        History H db' (states ++ (states.getLastD ∅).states blocks) := by
  induction blocks with
  | nil =>
    intro db states history
    exact ⟨db, rfl, by simpa [Reference.states] using history⟩
  | cons entries blocks ih =>
    intro db states history
    obtain ⟨db₁, extended, history₁⟩ := history.extend entries
    obtain ⟨db', run, history'⟩ := ih history₁
    rw [List.getLastD_concat] at run history'
    refine ⟨db', ?_, ?_⟩
    · have step : (MerkleTree.mk db H).extendBlocks (entries :: blocks) = (do
          let (outputs, tree) ← (MerkleTree.mk db₁ H).extendBlocks blocks
          pure (((states.getLastD ∅).output H entries).1 :: outputs, tree)) := by
        simp only [MerkleTree.extendBlocks, extended]
        rfl
      rw [step, run]
      rfl
    · rw [Reference.states_cons]
      simpa [Reference.output] using history'

/-- Blocks applied one after another with `MerkleTree::extend` to the empty patch set: the outputs
are those of the reference model (for each block the hash of the complete tree over the map with
the last write winning, the number of its keys, and the log of each entry against the map just
before it), and the root of each version hashes to the complete tree over the map after its
block. -/
theorem extendBlocks_eq_outputs (H : HashTree) (blocks : List (List TreeEntry)) :
    ∃ tree, (MerkleTree.mk (default : PatchSet) H).extendBlocks blocks =
        .ok (Reference.outputs H ∅ blocks, tree) ∧
      ∀ i < blocks.length, tree.rootHash i =
        some (treeHash H ((∅ : Reference).afterBlocks (blocks.take (i + 1))).contents) := by
  obtain ⟨db, run, history⟩ := History.extendBlocks blocks (History.nil H)
  refine ⟨⟨db, H⟩, run, fun i h => ?_⟩
  have inRange : i < ((∅ : Reference).states blocks).length := by
    simpa [Reference.states] using h
  obtain ⟨root, found, holds, -⟩ := history.roots i (by simpa using inRange)
  simp only [List.getLastD_nil, List.nil_append, Reference.getElem_states] at holds
  simp [MerkleTree.rootHash, Database.tryRoot, found, holds.hash_eq]

end Run

end ZksyncEra.MerkleTree
