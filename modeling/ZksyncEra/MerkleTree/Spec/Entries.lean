import ZksyncEra.MerkleTree.Getters
import ZksyncEra.MerkleTree.Spec.Extend

/-!
Reading a version back (`MerkleTree::entries` in `getters.rs`): `load_ancestors` from the root of
the version, then `extract_entry` at the longest prefix of each key. Over a patch set written block
by block by `MerkleTree::extend`, every version reads back the map after its block, and a version
past the last one is reported missing.

`load_ancestors` follows references by the versions they carry; the version of the working set
only labels it. A working set with the same nodes on the same levels loads the same prefixes, which
is how a read of an old version uses the spec of the loader, stated for a working set above every
stored version.
-/

namespace ZksyncEra.MerkleTree

/-- The entry the map gives a key: its value and leaf index, or the empty entry of a missing key. -/
def Contents.entry (contents : Contents) (key : Key) : TreeEntry :=
  ((contents key).map fun found => ⟨key, found.1, found.2⟩).getD (TreeEntry.empty key)

theorem Contents.entry_of_none {contents : Contents} {key : Key} (absent : contents key = none) :
    contents.entry key = TreeEntry.empty key := by
  rw [Contents.entry, absent, Option.map_none, Option.getD_none]

theorem Contents.entry_of_some {contents : Contents} {key : Key} {value : ValueHash}
    {leafIndex : Nat} (found : contents key = some (value, leafIndex)) :
    contents.entry key = ⟨key, value, leafIndex⟩ := by
  rw [Contents.entry, found, Option.map_some, Option.getD_some]

namespace WorkingPatchSet

/-- Two working sets with the same nodes on the same levels, whatever their versions. -/
structure SameNodes (W W' : WorkingPatchSet) : Prop where
  levels : W.changesByNibbleCount.length = W'.changesByNibbleCount.length
  get : ∀ q, W.get q = W'.get q

variable {W W' : WorkingPatchSet}

theorem SameNodes.childRef (same : SameNodes W W') : W.childRef = W'.childRef := by
  funext key childNibble
  unfold WorkingPatchSet.childRef
  rw [same.get]

theorem SameNodes.requestKeys (same : SameNodes W W') (nibbleCount : Nat) :
    W.requestKeys nibbleCount = W'.requestKeys nibbleCount := by
  funext keys longestPrefixes prevNibbles
  unfold WorkingPatchSet.requestKeys WorkingPatchSet.requestKey
  rw [same.childRef]

theorem SameNodes.pushLevelFromDb (same : SameNodes W W') (level : List (NodeKey × Node)) :
    SameNodes (W.pushLevelFromDb level) (W'.pushLevelFromDb level) where
  levels := by simp [WorkingPatchSet.pushLevelFromDb, same.levels]
  get q := by
    unfold WorkingPatchSet.get
    rw [getWorking_pushLevelFromDb, getWorking_pushLevelFromDb, same.levels]
    split
    · rfl
    · exact same.get q

/-- The working sets of one root under two versions. -/
theorem sameNodes_new (root : Root) (version version' : Nat) :
    SameNodes (new version root) (new version' root) where
  levels := by cases root <;> rfl
  get q := by
    unfold WorkingPatchSet.get
    cases root with
    | empty => rw [getWorking_new_empty, getWorking_new_empty]
    | filled leafCount positive node =>
      rw [getWorking_new_filled, getWorking_new_filled]
      split <;> rfl

variable {DB : Type} [Database DB] (sortedKeys : SortedKeys) (db : DB)

/-- The loop loads the same prefixes into working sets with the same nodes. The induction is on
the fuel; each iteration requests the same nodes and pushes the same level on both sides. -/
theorem loadAncestorsLoop_of_sameNodes (fuel : Nat) :
    ∀ {c : Nat} {W W' : WorkingPatchSet} {prefixes : List (Option Nibbles)}
      {prev : Option Nibbles} {ps : List Nibbles} {X' : WorkingPatchSet}, SameNodes W W' →
      loadAncestorsLoop sortedKeys db fuel c W' prefixes prev = some (ps, X') →
      ∃ X, loadAncestorsLoop sortedKeys db fuel c W prefixes prev = some (ps, X) ∧
        SameNodes X X' := by
  induction fuel with
  | zero =>
    intro c W W' prefixes prev ps X' _ loaded
    cases loaded
  | succ fuel ih =>
    intro c W W' prefixes prev ps X' same loaded
    rw [loadAncestorsLoop] at loaded ⊢
    rw [same.requestKeys]
    cases requested : W'.requestKeys c sortedKeys.keys prefixes prev with
    | none =>
      rw [requested] at loaded
      cases loaded
    | some state =>
      obtain ⟨prefixes', prev', requests⟩ := state
      rw [requested] at loaded
      simp only [Option.bind_eq_bind, Option.bind_some] at loaded ⊢
      split
      · -- nothing requested: the prefixes are collected, the working set is kept
        rw [if_pos ‹_›] at loaded
        cases collected : prefixes'.mapM id with
        | none =>
          rw [collected] at loaded
          cases loaded
        | some ps' =>
          rw [collected] at loaded
          cases loaded
          exact ⟨W, rfl, same⟩
      · rw [if_neg ‹_›] at loaded
        cases nodes : Database.treeNodes db requests with
        | none =>
          rw [nodes] at loaded
          cases loaded
        | some newNodes =>
          rw [nodes] at loaded
          simp only [Option.bind_some] at loaded ⊢
          cases pairedUp : ((requests.zip newNodes).mapM fun x => x.2.map (x.1.1, ·)) with
          | none =>
            rw [pairedUp] at loaded
            cases loaded
          | some level =>
            rw [pairedUp] at loaded
            exact ih (same.pushLevelFromDb level) loaded

/-- `load_ancestors` loads the same prefixes into working sets with the same nodes. -/
theorem loadAncestors_of_sameNodes (same : SameNodes W W') {ps : List Nibbles}
    {X' : WorkingPatchSet} (loaded : W'.loadAncestors sortedKeys db = some (ps, X')) :
    ∃ X, W.loadAncestors sortedKeys db = some (ps, X) ∧ SameNodes X X' := by
  unfold WorkingPatchSet.loadAncestors at loaded ⊢
  rw [same.get]
  -- below an internal root the loop runs; otherwise every key stops at the root
  cases root : W'.get Nibbles.EMPTY with
  | none =>
    simp only [root] at loaded ⊢
    cases loaded
    exact ⟨W, rfl, same⟩
  | some node =>
    cases node with
    | leaf leaf =>
      simp only [root] at loaded ⊢
      cases loaded
      exact ⟨W, rfl, same⟩
    | internal parent =>
      simp only [root] at loaded ⊢
      exact loadAncestorsLoop_of_sameNodes sortedKeys db _ same loaded

end WorkingPatchSet

theorem extractEntry_of_leaf {W : WorkingPatchSet} {longestPrefix : Nibbles} {leaf : LeafNode}
    (found : W.get longestPrefix = some (.leaf leaf)) (leafKey : Key) :
    extractEntry W leafKey longestPrefix =
      if leaf.fullKey = leafKey then leaf.toTreeEntry else TreeEntry.empty leafKey := by
  unfold extractEntry
  rw [found]

theorem extractEntry_of_not_leaf {W : WorkingPatchSet} {longestPrefix : Nibbles}
    (notLeaf : ∀ leaf, W.get longestPrefix ≠ some (.leaf leaf)) (leafKey : Key) :
    extractEntry W leafKey longestPrefix = TreeEntry.empty leafKey := by
  unfold extractEntry
  split
  · exact absurd ‹_› (notLeaf _)
  · rfl

theorem extractEntry_of_sameNodes {W W' : WorkingPatchSet} (same : W.SameNodes W')
    (leafKey : Key) (longestPrefix : Nibbles) :
    extractEntry W leafKey longestPrefix = extractEntry W' leafKey longestPrefix := by
  unfold extractEntry
  rw [same.get]

/-- The loop of `entries` leaves the patch set as it is and extracts every key at its prefix. -/
theorem transformEntries_extractEntry (W : WorkingPatchSet) (pairs : List (Key × Nibbles)) :
    transformEntries (fun patchSet leafKey longestPrefix =>
        some (extractEntry patchSet leafKey longestPrefix, patchSet)) W pairs =
      some (pairs.map fun pair => extractEntry W pair.1 pair.2, W) := by
  induction pairs with
  | nil => rfl
  | cons pair rest ih =>
    simp only [transformEntries, Option.bind_eq_bind, Option.bind_some, ih]
    rfl

section Extract

variable {H : HashTree} {store : NodeStore} {contents : Contents} {version : Nat}
  {pending : Nibbles → Prop} {W : WorkingPatchSet} {key : Key} {p : Nibbles}

/-- `extract_entry` at the longest prefix of a key reads the key off the map the working set
stands for: a leaf there is the key's own leaf or proves it missing, and an internal node there
has no reference towards the key, so nothing lies below it on the key's path. -/
theorem Settled.extractEntry_eq (inv : WsInv H store contents W.getWorking version pending)
    (settled : Settled W.getWorking key p) :
    extractEntry W key p = contents.entry key := by
  cases found : W.getWorking p with
  | none =>
    -- only the root position can be empty, and then so is the map
    have root : p = Nibbles.EMPTY := by
      have count := settled.present.resolve_left (by rw [found]; simp)
      rw [← settled.under, count, Nibbles.new_zero]
    have absent := (inv.rootEmpty (root ▸ found)).2 key
    rw [Contents.entry_of_none absent]
    refine extractEntry_of_not_leaf (fun leaf atLeaf => ?_) key
    rw [WorkingPatchSet.get, found] at atLeaf
    cases atLeaf
  | some working =>
    have ok := inv.nodeOk p working found
    have get : W.get p = some working.inner := by rw [WorkingPatchSet.get, found]; rfl
    cases inner : working.inner with
    | leaf leaf =>
      rw [inner] at ok get
      rw [extractEntry_of_leaf get]
      by_cases same : leaf.fullKey = key
      · subst same
        rw [if_pos rfl, Contents.entry_of_some ok.found]
        rfl
      · -- another key's leaf: no present key lies below it but its own
        have absent : contents key = none := by
          cases present : contents key with
          | none => rfl
          | some _ => exact absurd (ok.only key settled.under (by rw [present]; rfl)).symm same
        rw [if_neg same, Contents.entry_of_none absent]
    | internal node =>
      rw [inner] at ok get
      have stops := settled.stops working node found inner
      have slot := ok.slots _ (Nibbles.nibble_lt key ok.depth_lt)
      rw [slotOk_of_none stops] at slot
      rw [Contents.entry_of_none (slot key settled.under rfl)]
      exact extractEntry_of_not_leaf (fun leaf atLeaf => by rw [get] at atLeaf; cases atLeaf) key

/-- Each requested key comes with the prefix the loader settled it at. -/
theorem Loaded.settled_zip {leafKeys : List Key} {ps : List Nibbles}
    (loaded : Loaded H store contents version (SortedKeys.new leafKeys).keys W ps) :
    ∀ pair ∈ leafKeys.zip ps, Settled W.getWorking pair.1 pair.2 := by
  intro pair member
  obtain ⟨i, hi, rfl⟩ := List.getElem_of_mem member
  rw [List.length_zip] at hi
  obtain ⟨p, atIdx, settled⟩ := loaded.settled i leafKeys[i]
    (mem_keys_sortedKeys_new.mpr ⟨by omega, rfl⟩)
  rw [List.getElem?_eq_getElem (by omega), Option.some.injEq] at atIdx
  rw [List.getElem_zip, atIdx]
  exact settled

end Extract

/-! ### Reading the versions of a history -/

section History

variable {H : HashTree} {db : PatchSet} {states : List Reference}

/-- A version with a root reads back, for every requested key in the order requested, the map
after its block. -/
theorem History.entries_of_lt (history : History H db states) {version : Nat}
    (h : version < states.length) (leafKeys : List Key) :
    (MerkleTree.mk db H).entries version leafKeys =
      some (.ok (leafKeys.map states[version].contents.entry)) := by
  obtain ⟨root, found, holds, -⟩ := history.roots version h
  -- the loader's spec, for the working set labelled with the next version
  obtain ⟨ps, W', loaded', -, isLoaded⟩ := loadAncestors_spec (PatchSet.treeNodes_eq db)
    history.fresh holds leafKeys
  obtain ⟨W, loaded, same⟩ := WorkingPatchSet.loadAncestors_of_sameNodes _ db
    (WorkingPatchSet.sameNodes_new root version states.length) loaded'
  have length : ps.length = leafKeys.length := by simpa using isLoaded.length
  have found' : Database.tryRoot db version = some root := found
  unfold MerkleTree.entries loadAndTransformEntries
  simp only [found', loaded, Option.bind_eq_bind, Option.bind_some, transformEntries_extractEntry]
  congr 2
  -- each key is read at the prefix it was settled at
  conv_rhs => rw [← List.map_fst_zip length.ge, List.map_map]
  apply List.map_congr_left
  intro pair member
  rw [Function.comp_apply, extractEntry_of_sameNodes same,
    (isLoaded.settled_zip pair member).extractEntry_eq isLoaded.ws]

/-- A version past the last one is missing, and the error carries the number of versions. -/
theorem History.entries_of_le (history : History H db states) {version : Nat}
    (h : states.length ≤ version) (leafKeys : List Key) :
    (MerkleTree.mk db H).entries version leafKeys =
      some (.error ⟨version, states.length⟩) := by
  have noPatch : db.patchesByVersion.lookup version = none := by
    cases patch : db.patchesByVersion.lookup version with
    | none => rfl
    | some _ => exact absurd (history.versions version (by rw [patch]; rfl)) (by omega)
  have missing : Database.tryRoot db version = none := by
    simp [Database.tryRoot, PatchSet.tryRoot, noPatch]
  unfold MerkleTree.entries loadAndTransformEntries
  rw [missing]
  simp [Database.tryManifest, PatchSet.tryManifest, history.versionCount]

end History

/-! ### Reading back a run of blocks -/

/-- Blocks applied with `MerkleTree::extend` to the empty patch set, then read with
`MerkleTree::entries`: every version up to the last reads back, for each requested key in the
order requested, the value and leaf index that the blocks up to it wrote last (the empty entry for
a key never written), and a later version is missing, with the number of blocks as the count. -/
theorem entries_after_extendBlocks (H : HashTree) (blocks : List (List TreeEntry)) :
    ∃ outputs tree, (MerkleTree.mk (default : PatchSet) H).extendBlocks blocks =
        .ok (outputs, tree) ∧
      ∀ version leafKeys, tree.entries version leafKeys =
        some (if version < blocks.length then
          .ok (leafKeys.map ((∅ : Reference).afterBlocks (blocks.take (version + 1))).contents.entry)
        else .error ⟨version, blocks.length⟩) := by
  obtain ⟨db, run, history⟩ := History.extendBlocks blocks (History.nil H)
  simp only [List.getLastD_nil, List.nil_append] at run history
  have count : ((∅ : Reference).states blocks).length = blocks.length := by
    simp [Reference.states]
  refine ⟨_, ⟨db, H⟩, run, fun version leafKeys => ?_⟩
  split
  · rw [history.entries_of_lt (by omega), Reference.getElem_states]
  · rw [history.entries_of_le (by omega), count]

end ZksyncEra.MerkleTree
