import ZksyncEra.MerkleTree.Proofs
import ZksyncEra.MerkleTree.Consistency
import ZksyncEra.MerkleTree.Spec.Extend
import ZksyncEra.Lib.Lists

/-!
`MerkleTree::extend_with_proofs` over a tree whose root is a single leaf.

The full operation mode first makes the root an internal node (`ensure_internal_root_node`): the
leaf moves one level down, and the new root refers to it with a blank hash. Only a write into the
leaf's subtree rewrites that hash (`finalize_logs` updates the root's references for writes only),
and nothing turns the root back into a leaf. So a block without such a write stores a root whose
reference to the leaf has the blank hash: the stored tree is not the one `extend` stores, its root
hash is not the hash of the contents, the root hash in the logs is not the previous root hash, and
the consistency check finds the wrong child hash.

## Proof strategy

Splitting the working patch set by first nibble and merging the parts back gives every node below
the root back (`getWorking_foldl_merge_split`); the root level is the cloned root. The runs are
then computed step by step over a patch set whose latest root is a leaf.
-/

set_option linter.dupNamespace false

namespace ZksyncEra.MerkleTree

open Nibbles

/-! ### Maps -/

namespace HashMap

variable {K V W : Type} [DecidableEq K]

theorem lookup_mapValues (f : V → W) (m : HashMap K V) (key : K) :
    (m.mapValues f).lookup key = (m.lookup key).map f := by
  obtain ⟨entries, nodup⟩ := m
  unfold mapValues AList.lookup
  simp only
  clear nodup
  induction entries with
  | nil => rfl
  | cons entry rest ih =>
    obtain ⟨k, v⟩ := entry
    by_cases same : k = key
    · subst same
      simp [List.dlookup_cons_eq]
    · have other : key ≠ k := Ne.symm same
      simp only [List.map_cons]
      rw [List.dlookup_cons_ne _ _ other, List.dlookup_cons_ne _ _ other, ih]

/-- A map that answers every lookup as a singleton is that singleton. -/
theorem eq_singleton_of_lookup {m : HashMap K V} {k : K} {v : V}
    (same : ∀ key, m.lookup key = (AList.singleton k v : HashMap K V).lookup key) :
    m = AList.singleton k v := by
  apply AList.ext
  apply List.perm_singleton.mp
  apply List.lookup_ext m.nodupKeys (AList.singleton k v).nodupKeys
  intro key value
  exact Iff.of_eq (congrArg (value ∈ ·) (same key))

end HashMap

/-! ### Splitting and merging -/

namespace WorkingPatchSet

/-- Merging adds the nodes of `other` below the root level, which stays that of `self`. -/
theorem getWorking_merge (self other : WorkingPatchSet) (q : Nibbles) :
    (self.merge other).getWorking q =
      if q.nibbleCount = 0 then self.getWorking q
      else (other.getWorking q).or (self.getWorking q) := by
  let levels := self.changesByNibbleCount
  let padded := if levels.length < other.changesByNibbleCount.length then
      levels ++ List.replicate (other.changesByNibbleCount.length - levels.length) ∅
    else levels
  have samePadded : (padded[q.nibbleCount]?).bind (·.lookup q.bytes) = self.getWorking q := by
    simp only [padded]
    split
    · exact lookup_pad levels _ q
    · rfl
  have long : other.changesByNibbleCount.length ≤ padded.length := by
    simp only [padded]
    split
    · simp only [List.length_append, List.length_replicate]
      omega
    · omega
  -- the level of `q` in the merge is the padded level of `self`, extended by that of `other`
  cases source : other.changesByNibbleCount[q.nibbleCount]? with
  | none =>
    have step : (self.merge other).getWorking q = (padded[q.nibbleCount]?).bind (·.lookup q.bytes) := by
      simp only [merge, getWorking, padded, levels, List.getElem?_map, List.getElem?_zipIdx,
        Option.map_map, Function.comp_def, Nat.zero_add, source, Option.map_id']
    have absent : other.getWorking q = none := by simp [getWorking, source]
    simp only [step, absent, Option.none_or, ite_self]
    exact samePadded
  | some srcLevel =>
    have step : (self.merge other).getWorking q =
        ((padded[q.nibbleCount]?).map fun targetLevel =>
          if q.nibbleCount = 0 then targetLevel else targetLevel.extend srcLevel).bind
          (·.lookup q.bytes) := by
      simp only [merge, getWorking, padded, levels, List.getElem?_map, List.getElem?_zipIdx,
        Option.map_map, Function.comp_def, Nat.zero_add, source]
    have present : other.getWorking q = srcLevel.lookup q.bytes := by simp [getWorking, source]
    have inside : q.nibbleCount < padded.length :=
      Nat.lt_of_lt_of_le (List.getElem?_eq_some_iff.mp source).1 long
    obtain ⟨targetLevel, target⟩ : ∃ level, padded[q.nibbleCount]? = some level :=
      ⟨_, List.getElem?_eq_getElem inside⟩
    rw [target, Option.bind_some] at samePadded
    rw [step, target, Option.map_some, Option.bind_some, present, ← samePadded]
    by_cases root : q.nibbleCount = 0
    · simp only [root, if_true]
    · simp only [root, if_false]
      exact HashMap.lookup_extend targetLevel srcLevel q.bytes

/-- The part of subtree `p` in a split. -/
def splitPart (self : WorkingPatchSet) (p : Nat) : WorkingPatchSet :=
  { rootVersion := self.rootVersion
    changesByNibbleCount := self.changesByNibbleCount.zipIdx.map fun (level, nibbleCount) =>
      if nibbleCount = 0 then level.mapValues WorkingNode.clone
      else level.retain fun nibbles _ =>
        (GetElem.getElem nibbles 0 zero_lt_nibblesBytes >>> 4).toNat == p }

theorem split_eq (self : WorkingPatchSet) :
    self.split = (List.range SUBTREE_COUNT).map self.splitPart := rfl

/-- A part keeps the root level, cloned, and the nodes below it in its subtree. -/
theorem getWorking_splitPart (self : WorkingPatchSet) (p : Nat) (q : Nibbles) :
    (self.splitPart p).getWorking q =
      if q.nibbleCount = 0 then (self.getWorking q).map WorkingNode.clone
      else (self.getWorking q).filter fun _ =>
        (GetElem.getElem q.bytes 0 zero_lt_nibblesBytes >>> 4).toNat == p := by
  simp only [splitPart, getWorking, List.getElem?_map, List.getElem?_zipIdx, Option.map_map,
    Function.comp_def, Nat.zero_add]
  cases level : self.changesByNibbleCount[q.nibbleCount]? with
  | none => by_cases root : q.nibbleCount = 0 <;> simp [root]
  | some level =>
    by_cases root : q.nibbleCount = 0
    · simp [root, HashMap.lookup_mapValues]
    · simp [root, HashMap.lookup_retain]

/-- Folding `or` over views that are each nothing or `v`, one of them `v`, gives `v`. -/
theorem foldl_or_eq {α : Type} {v : Option α} :
    ∀ (views : List (Option α)) {init : Option α}, (init = none ∨ init = v) →
      (∀ x ∈ views, x = none ∨ x = v) → (init = v ∨ v ∈ views) →
      views.foldl (fun view x => x.or view) init = v
  | [], _, _, _, found => by simpa using found
  | x :: xs, init, initOk, viewsOk, found => by
    have xOk := viewsOk x List.mem_cons_self
    rw [List.foldl_cons]
    apply foldl_or_eq xs
    · rcases xOk with hx | hx <;> rcases initOk with hi | hi <;> simp [hx, hi]
    · exact fun y member => viewsOk y (List.mem_cons_of_mem x member)
    · rcases found with hi | found
      · left
        rcases xOk with hx | hx <;> simp [hx, hi]
      · rcases List.mem_cons.mp found with hx | later
        · left
          rcases initOk with hi | hi <;> simp [← hx, hi]
        · exact Or.inr later

/-- Below the root, the views of merged patch sets are joined by `or`, latest first. -/
theorem getWorking_foldl_merge {q : Nibbles} (below : q.nibbleCount ≠ 0) :
    ∀ (parts : List WorkingPatchSet) (acc : WorkingPatchSet),
      (parts.foldl merge acc).getWorking q =
        (parts.map (·.getWorking q)).foldl (fun view x => x.or view) (acc.getWorking q)
  | [], _ => rfl
  | part :: parts, acc => by
    rw [List.foldl_cons, getWorking_foldl_merge below parts, getWorking_merge, if_neg below]
    rfl

/-- The first nibble of a byte sequence names one of the subtrees. -/
theorem firstNibble_lt (bytes : NibblesBytes) :
    (GetElem.getElem bytes 0 zero_lt_nibblesBytes >>> 4).toNat < SUBTREE_COUNT := by
  have small := bytes[0].toNat_lt
  simp only [UInt8.toNat_shiftRight, SUBTREE_COUNT]
  rw [show (4 : UInt8).toNat % 8 = 4 from rfl, Nat.shiftRight_eq_div_pow]
  omega

/-- Merging the parts of a split back gives every node below the root. -/
theorem getWorking_foldl_merge_split (self : WorkingPatchSet) {first : WorkingPatchSet}
    {rest : List WorkingPatchSet} (parts : self.split = first :: rest) {q : Nibbles}
    (below : q.nibbleCount ≠ 0) :
    (rest.foldl merge first).getWorking q = self.getWorking q := by
  rw [getWorking_foldl_merge below]
  -- every part sees the node or nothing, and the part of its first nibble sees it
  have partOk : ∀ part ∈ self.split,
      part.getWorking q = none ∨ part.getWorking q = self.getWorking q := by
    intro part member
    rw [split_eq] at member
    obtain ⟨p, -, rfl⟩ := List.mem_map.mp member
    rw [getWorking_splitPart, if_neg below]
    cases self.getWorking q <;> simp [Option.filter]
    exact (em' _)
  have own : self.splitPart (q.bytes[0] >>> 4).toNat ∈ self.split := by
    rw [split_eq]
    exact List.mem_map.mpr ⟨_, List.mem_range.mpr (firstNibble_lt q.bytes), rfl⟩
  have ownView : (self.splitPart (q.bytes[0] >>> 4).toNat).getWorking q = self.getWorking q := by
    rw [getWorking_splitPart, if_neg below]
    cases self.getWorking q <;> simp [Option.filter]
  rw [parts] at partOk own
  apply foldl_or_eq
  · exact partOk first List.mem_cons_self
  · intro x member
    obtain ⟨part, inRest, rfl⟩ := List.mem_map.mp member
    exact partOk part (List.mem_cons_of_mem first inRest)
  · rcases List.mem_cons.mp own with same | later
    · exact Or.inl (same ▸ ownView)
    · exact Or.inr (List.mem_map.mpr ⟨_, later, ownView⟩)

/-- Below the root the merged parts of a split agree with the split set; the root level is that of
the first part. -/
theorem getWorking_foldl_merge_root {q : Nibbles} (root : q.nibbleCount = 0) :
    ∀ (parts : List WorkingPatchSet) (acc : WorkingPatchSet),
      (parts.foldl merge acc).getWorking q = acc.getWorking q
  | [], _ => rfl
  | part :: parts, acc => by
    rw [List.foldl_cons, getWorking_foldl_merge_root root parts, getWorking_merge, if_pos root]

theorem length_merge (self other : WorkingPatchSet) :
    (self.merge other).changesByNibbleCount.length =
      max self.changesByNibbleCount.length other.changesByNibbleCount.length := by
  unfold merge
  simp only [List.length_map, List.length_zipIdx]
  split <;> simp <;> omega

theorem length_foldl_merge {n : Nat} :
    ∀ (parts : List WorkingPatchSet) (acc : WorkingPatchSet),
      acc.changesByNibbleCount.length = n → (∀ part ∈ parts, part.changesByNibbleCount.length = n) →
      (parts.foldl merge acc).changesByNibbleCount.length = n
  | [], _, accLength, _ => accLength
  | part :: parts, acc, accLength, partsLength => by
    rw [List.foldl_cons]
    apply length_foldl_merge parts
    · rw [length_merge, accLength, partsLength part List.mem_cons_self, Nat.max_self]
    · exact fun other member => partsLength other (List.mem_cons_of_mem part member)

theorem length_of_mem_split {self part : WorkingPatchSet} (member : part ∈ self.split) :
    part.changesByNibbleCount.length = self.changesByNibbleCount.length := by
  rw [split_eq] at member
  obtain ⟨p, -, rfl⟩ := List.mem_map.mp member
  simp [splitPart]

theorem rootVersion_foldl_merge :
    ∀ (parts : List WorkingPatchSet) (acc : WorkingPatchSet),
      (parts.foldl merge acc).rootVersion = acc.rootVersion
  | [], _ => rfl
  | part :: parts, acc => by
    rw [List.foldl_cons, rootVersion_foldl_merge parts]
    rfl

end WorkingPatchSet

/-! ### A root leaf made internal -/

/-- The internal root that `ensure_internal_root_node` puts over a root leaf: one reference, to the
leaf, with a blank hash. -/
def rootOverLeaf (leaf : LeafNode) (version : Nat) : InternalNode :=
  InternalNode.empty.insertChildRef (nibble leaf.fullKey 0) (ChildRef.leaf version)

/-- The working patch set with the root leaf moved one level down under `rootOverLeaf`. -/
def WorkingPatchSet.withMovedLeaf (leaf : LeafNode) (version : Nat) : WorkingPatchSet :=
  ⟨version,
    [AList.singleton EMPTY.bytes
      ⟨.internal (rootOverLeaf leaf version), if 1 ≤ version then some (version - 1) else none⟩,
     AList.singleton (Nibbles.new leaf.fullKey 1).bytes ⟨.leaf leaf, none⟩]⟩

theorem ensureInternalRootNode_new_leaf (version leafCount : Nat) (positive : 0 < leafCount)
    (leaf : LeafNode) :
    (WorkingPatchSet.new version (.filled leafCount positive (.leaf leaf))).ensureInternalRootNode =
      (rootOverLeaf leaf version, WorkingPatchSet.withMovedLeaf leaf version) := by
  simp [WorkingPatchSet.ensureInternalRootNode, WorkingPatchSet.new, WorkingPatchSet.get,
    WorkingPatchSet.getWorking, WorkingPatchSet.insert, WorkingPatchSet.withMovedLeaf,
    AList.insert_singleton_eq, AList.insert_empty, rootOverLeaf, InternalNode.clone,
    HashMap.lookup_singleton,
    InternalNode.insertChildRef, InternalNode.empty, Nibbles.EMPTY]


/-- Splitting the patch set with the moved leaf and merging the parts back gives it again. -/
theorem foldl_merge_split_withMovedLeaf (leaf : LeafNode) (version : Nat)
    {first : WorkingPatchSet} {rest : List WorkingPatchSet}
    (parts : (WorkingPatchSet.withMovedLeaf leaf version).split = first :: rest) :
    rest.foldl WorkingPatchSet.merge first = WorkingPatchSet.withMovedLeaf leaf version := by
  set W := WorkingPatchSet.withMovedLeaf leaf version
  have firstMember : first ∈ W.split := by rw [parts]; exact List.mem_cons_self
  have rootVersion : (rest.foldl WorkingPatchSet.merge first).rootVersion = version := by
    rw [WorkingPatchSet.rootVersion_foldl_merge]
    rw [WorkingPatchSet.split_eq] at firstMember
    obtain ⟨p, -, rfl⟩ := List.mem_map.mp firstMember
    rfl
  have length : (rest.foldl WorkingPatchSet.merge first).changesByNibbleCount.length = 2 := by
    apply WorkingPatchSet.length_foldl_merge rest first
    · exact WorkingPatchSet.length_of_mem_split firstMember
    · intro part member
      have inSplit : part ∈ W.split := by rw [parts]; exact List.mem_cons_of_mem first member
      rw [WorkingPatchSet.length_of_mem_split inSplit]
      rfl
  -- the root level is the first part's, which is the root level cloned, and cloning the new
  -- root changes nothing
  have rootLevel : ∀ bytes, (rest.foldl WorkingPatchSet.merge first).getWorking ⟨0, bytes⟩ =
      W.getWorking ⟨0, bytes⟩ := by
    intro bytes
    rw [WorkingPatchSet.getWorking_foldl_merge_root rfl]
    rw [WorkingPatchSet.split_eq] at firstMember
    obtain ⟨p, -, rfl⟩ := List.mem_map.mp firstMember
    rw [WorkingPatchSet.getWorking_splitPart, if_pos rfl]
    simp only [W, WorkingPatchSet.withMovedLeaf, WorkingPatchSet.getWorking]
    simp only [List.getElem?_cons_zero, Option.bind_some, HashMap.lookup_singleton]
    split <;> rfl
  have leafLevel : ∀ bytes, (rest.foldl WorkingPatchSet.merge first).getWorking ⟨1, bytes⟩ =
      W.getWorking ⟨1, bytes⟩ :=
    fun bytes => WorkingPatchSet.getWorking_foldl_merge_split W parts Nat.one_ne_zero
  generalize rest.foldl WorkingPatchSet.merge first = merged at rootVersion length rootLevel leafLevel
  obtain ⟨rootVersion', levels⟩ := merged
  obtain ⟨x, y, rfl⟩ := List.length_eq_two.mp length
  have sameVersion : rootVersion' = version := rootVersion
  have sameX : x = AList.singleton EMPTY.bytes ⟨.internal (rootOverLeaf leaf version),
      if 1 ≤ version then some (version - 1) else none⟩ := by
    apply HashMap.eq_singleton_of_lookup
    intro bytes
    simpa only [WorkingPatchSet.getWorking, W, WorkingPatchSet.withMovedLeaf,
      List.getElem?_cons_zero, Option.bind_some] using rootLevel bytes
  have sameY : y = AList.singleton (Nibbles.new leaf.fullKey 1).bytes ⟨.leaf leaf, none⟩ := by
    apply HashMap.eq_singleton_of_lookup
    intro bytes
    simpa only [WorkingPatchSet.getWorking, W, WorkingPatchSet.withMovedLeaf,
      List.getElem?_cons_succ, List.getElem?_cons_zero, Option.bind_some] using leafLevel bytes
  rw [sameX, sameY, sameVersion]
  rfl


theorem rootOverLeaf_clone (leaf : LeafNode) (version : Nat) :
    (rootOverLeaf leaf version).clone = rootOverLeaf leaf version := rfl

theorem childRef_rootOverLeaf (leaf : LeafNode) (version : Nat) {j : UInt8} (hj : j.toNat < 16) :
    (rootOverLeaf leaf version).childRef j =
      if nibble leaf.fullKey 0 = j then some (ChildRef.leaf version) else none := by
  unfold rootOverLeaf InternalNode.insertChildRef InternalNode.childRef
  rw [SmallMap.get_insert _ (nibble_lt leaf.fullKey (by decide)) hj]
  split
  · rfl
  · simp [InternalNode.empty, SmallMap.empty, SmallMap.get]

theorem setRootNode_withMovedLeaf (leaf : LeafNode) (version : Nat) :
    TreeUpdater.setRootNode (WorkingPatchSet.withMovedLeaf leaf version)
      (.internal (rootOverLeaf leaf version)) = WorkingPatchSet.withMovedLeaf leaf version := by
  simp [TreeUpdater.setRootNode, WorkingPatchSet.insert, WorkingPatchSet.withMovedLeaf,
    HashMap.lookup_singleton, AList.insert_singleton_eq, Nibbles.EMPTY]

/-- Finalizing the moved leaf without hashing, under a root with the references of
`rootOverLeaf`, writes the leaf at its new position and that root over it, whose reference keeps
its blank hash; the old root goes stale. -/
theorem finalizeWithoutHashing_setRoot_withMovedLeaf (leaf : LeafNode) (v : Nat)
    (manifest : Manifest) {leafCount : Nat} (positive : 0 < leafCount) {root : InternalNode}
    (children : root.children = (rootOverLeaf leaf (v + 1)).children) :
    (TreeUpdater.setRootNode (WorkingPatchSet.withMovedLeaf leaf (v + 1))
        (.internal root)).finalizeWithoutHashing manifest leafCount =
      some (PatchSet.new manifest (v + 1) (.filled leafCount positive (.internal root))
        (AList.singleton ⟨v + 1, Nibbles.new leaf.fullKey 1⟩ (.leaf leaf))
        [EMPTY.withVersion v] .insert) := by
  have small := nibble_lt leaf.fullKey (show 0 < 64 by decide)
  have split : (Nibbles.new leaf.fullKey 1).splitLast = some (EMPTY, nibble leaf.fullKey 0) := by
    rw [splitLast_new leaf.fullKey (show 0 < 64 by decide), new_zero]
  have hasRef : root.childRef (nibble leaf.fullKey 0) = some (ChildRef.leaf (v + 1)) := by
    have own := childRef_rootOverLeaf leaf (v + 1) small
    rw [if_pos rfl] at own
    rwa [InternalNode.childRef, children]
  -- the leaf level writes the blank hash back into the reference: the root stays as it is
  have unchanged : root.updateChildRef (nibble leaf.fullKey 0) (fun selfRef => selfRef) =
      some root := by
    have same : root.children.insert (nibble leaf.fullKey 0) (ChildRef.leaf (v + 1)) =
        root.children := SmallMap.insert_eq_self root.children small hasRef
    simp [InternalNode.updateChildRef, hasRef, InternalNode.insertChildRef, same]
  have leafPosition : Nibbles.fromParts (Nibbles.new leaf.fullKey 1).bytes 1 =
      Nibbles.new leaf.fullKey 1 := rfl
  have rootPosition : Nibbles.fromParts EMPTY.bytes 0 = EMPTY := rfl
  simp [TreeUpdater.setRootNode, WorkingPatchSet.insert, WorkingPatchSet.finalizeWithoutHashing,
    WorkingPatchSet.finalizeInner, WorkingPatchSet.withMovedLeaf, WorkingPatchSet.finalizeLevels,
    WorkingPatchSet.finalizeLevel, leafPosition, rootPosition, split, HashMap.lookup_singleton,
    hasRef, unchanged, Root.new, positive, AList.insert_singleton_eq, AList.insert_empty]
  rfl

theorem finalizeWithoutHashing_withMovedLeaf (leaf : LeafNode) (v : Nat) (manifest : Manifest)
    {leafCount : Nat} (positive : 0 < leafCount) :
    (WorkingPatchSet.withMovedLeaf leaf (v + 1)).finalizeWithoutHashing manifest leafCount =
      some (PatchSet.new manifest (v + 1)
        (.filled leafCount positive (.internal (rootOverLeaf leaf (v + 1))))
        (AList.singleton ⟨v + 1, Nibbles.new leaf.fullKey 1⟩ (.leaf leaf))
        [EMPTY.withVersion v] .insert) := by
  rw [← setRootNode_withMovedLeaf]
  exact finalizeWithoutHashing_setRoot_withMovedLeaf leaf v manifest positive rfl

/-! ### An empty block over a root leaf -/

theorem WorkingPatchSet.loadAncestors_leaf_root {DB : Type} [Database DB] (version leafCount : Nat)
    (positive : 0 < leafCount) (leaf : LeafNode) (sortedKeys : SortedKeys) (db : DB) :
    (WorkingPatchSet.new version (.filled leafCount positive (.leaf leaf))).loadAncestors
        sortedKeys db =
      some (List.replicate sortedKeys.keys.length EMPTY,
        WorkingPatchSet.new version (.filled leafCount positive (.leaf leaf))) := by
  simp [WorkingPatchSet.loadAncestors, WorkingPatchSet.get, WorkingPatchSet.getWorking_new_filled]

theorem TreeUpdater.extendPrecomputed_nil (H : HashTree) (self : WorkingPatchSet) {nibble : UInt8}
    (small : nibble < 16) : TreeUpdater.extendPrecomputed H self nibble [] = some ([], self) := by
  simp [TreeUpdater.extendPrecomputed, Nibbles.single, small, TreeUpdater.applyInstructions]

/-- The first nibbles of the subtrees are bytes below 16. -/
theorem toUInt8_lt_sixteen {p : Nat} (small : p < 16) : p.toUInt8 < 16 := by
  rw [UInt8.lt_iff_toNat_lt, Nat.toUInt8_eq, UInt8.toNat_ofNat_of_lt' (by unfold UInt8.size; omega)]
  exact small

/-! ### Paths and logs at the root -/

theorem MerklePath.length_push_le (H : HashTree) (path : MerklePath)
    (maybeHash : Option ValueHash) :
    (path.push H maybeHash).hashes.length ≤ path.hashes.length + 1 := by
  unfold MerklePath.push
  cases maybeHash with
  | some hash => simp
  | none => by_cases empty : path.hashes.isEmpty <;> simp [empty]

/-- The inner levels of a node cache add three hashes at most to a path. -/
theorem InternalNodeCache.extendMerklePath_spec (H : HashTree) (cache : InternalNodeCache)
    (path : MerklePath) {nibble : UInt8} (small : nibble.toNat < 16) :
    ∃ path', cache.extendMerklePath H path nibble = some path' ∧
      path'.hashes.length ≤ path.hashes.length + 3 := by
  -- the sibling indices stay inside the three cache levels
  have xorLt : ∀ {i n : Nat}, i < 2 ^ n → 0 < n → i ^^^ 1 < 2 ^ n := fun lt pos =>
    Nat.xor_lt_two_pow lt (Nat.one_lt_two_pow_iff.mpr (by omega))
  have i3 : nibble.toNat / 2 ^^^ 1 < 8 := xorLt (n := 3) (by omega) (by omega)
  have i2 : nibble.toNat / 2 / 2 ^^^ 1 < 4 := xorLt (n := 2) (by omega) (by omega)
  have i1 : nibble.toNat / 2 / 2 / 2 ^^^ 1 < 2 := xorLt (n := 1) (by omega) (by omega)
  refine ⟨((path.push H cache.level3[nibble.toNat / 2 ^^^ 1]).push H
    cache.level2[nibble.toNat / 2 / 2 ^^^ 1]).push H cache.level1[nibble.toNat / 2 / 2 / 2 ^^^ 1],
    ?_, ?_⟩
  · simp [InternalNodeCache.extendMerklePath, i3, i2, i1]
  · -- one hash at most for each of the three levels
    have first := MerklePath.length_push_le H path cache.level3[nibble.toNat / 2 ^^^ 1]
    have second := MerklePath.length_push_le H (path.push H cache.level3[nibble.toNat / 2 ^^^ 1])
      cache.level2[nibble.toNat / 2 / 2 ^^^ 1]
    have third := MerklePath.length_push_le H
      ((path.push H cache.level3[nibble.toNat / 2 ^^^ 1]).push H
        cache.level2[nibble.toNat / 2 / 2 ^^^ 1]) cache.level1[nibble.toNat / 2 / 2 / 2 ^^^ 1]
    omega

/-- `InternalNodeUpdater::extend_merkle_path` adds four hashes at most to a path, and changes at
most the node's cache. -/
theorem InternalNode.extendMerklePath_spec (H : HashTree) (node : InternalNode) (level : Nat)
    (nibble : UInt8) (small : nibble.toNat < 16) (path : MerklePath) :
    ∃ path' node', node.extendMerklePath H level nibble path = some (path', node') ∧
      node'.children = node.children ∧ path'.hashes.length ≤ path.hashes.length + 4 := by
  let adjacent := path.push H ((node.childRef (nibble ^^^ 1)).map (·.hash))
  have pushed : adjacent.hashes.length ≤ path.hashes.length + 1 := MerklePath.length_push_le H _ _
  cases cached : node.cache with
  | some cache =>
    obtain ⟨path', extended, length⟩ := InternalNodeCache.extendMerklePath_spec H cache adjacent small
    refine ⟨path', node, ?_, rfl, by omega⟩
    simp only [InternalNode.extendMerklePath, cached]
    rw [extended]
    rfl
  | none =>
    -- the cache is filled first
    obtain ⟨path', extended, length⟩ :=
      InternalNodeCache.extendMerklePath_spec H (node.hashWithCache H level).2 adjacent small
    refine ⟨path', { node with cache := some (node.hashWithCache H level).2 }, ?_, rfl, by omega⟩
    simp only [InternalNode.extendMerklePath, cached]
    rw [extended]
    rfl

/-- `finalize_logs` once the logs are finalized at the root: the root goes back unless it has no
children left. -/
theorem TreeUpdater.finalizeLogs_of_entries (H : HashTree) (self : WorkingPatchSet)
    (root : InternalNode) (logs : List (Nat × TreeLogEntryWithProof MerklePath))
    (result : List (TreeLogEntryWithProof (List ValueHash)) × InternalNode)
    (entries : ∀ isLeafBySubtree, TreeUpdater.finalizeLogEntries H self.rootVersion
      isLeafBySubtree logs root (root.hash H 0) = some result) :
    TreeUpdater.finalizeLogs H self root logs =
      some (if result.2.childCount = 0 then (result.1, self.takeRoot.2)
        else (result.1, TreeUpdater.setRootNode self (.internal result.2))) := by
  unfold TreeUpdater.finalizeLogs
  apply Option.bind_eq_some_of_isSome
  · apply List.isSome_mapM
    intro subtreeIdx member
    have small : subtreeIdx < 16 := List.mem_range.mp member
    simp [u8TryFrom, Nibbles.single, toUInt8_lt_sixteen small, show subtreeIdx < 256 by omega]
  · intro isLeafBySubtree
    rw [entries isLeafBySubtree]
    by_cases empty : result.2.childCount = 0 <;> simp [empty]

/-- Without logs, `finalize_logs` only puts the root back. -/
theorem TreeUpdater.finalizeLogs_nil (H : HashTree) (self : WorkingPatchSet) (root : InternalNode)
    (children : root.childCount ≠ 0) :
    TreeUpdater.finalizeLogs H self root [] =
      some ([], TreeUpdater.setRootNode self (.internal root)) := by
  rw [TreeUpdater.finalizeLogs_of_entries H self root [] ([], root)]
  · simp [children]
  · intro isLeafBySubtree
    rfl

/-- A read log keeps the root hash and the root's references; only its path grows, by four
hashes at most. -/
theorem TreeUpdater.finalizeLogs_read (H : HashTree) (self : WorkingPatchSet) (root : InternalNode)
    (children : root.childCount ≠ 0) {i : Nat} (small : i < 16)
    (log : TreeLogEntryWithProof MerklePath) (read : log.base.isRead = true) :
    ∃ (path : MerklePath) (root' : InternalNode),
      TreeUpdater.finalizeLogs H self root [(i, log)] =
        some ([⟨log.base, path.intoInner, root.hash H 0⟩],
          TreeUpdater.setRootNode self (.internal root')) ∧
      path.hashes.length ≤ log.merklePath.hashes.length + 4 ∧ root'.children = root.children := by
  have nibble : i.toUInt8.toNat = i := by
    rw [Nat.toUInt8_eq, UInt8.toNat_ofNat_of_lt' (by unfold UInt8.size; omega)]
  obtain ⟨path, root', extended, sameChildren, length⟩ :=
    InternalNode.extendMerklePath_spec H root 0 i.toUInt8 (by omega) log.merklePath
  have kept : root'.childCount ≠ 0 := by
    rwa [InternalNode.childCount, sameChildren]
  refine ⟨path, root', ?_, length, sameChildren⟩
  rw [TreeUpdater.finalizeLogs_of_entries H self root [(i, log)]
    ([⟨log.base, path.intoInner, root.hash H 0⟩], root')]
  · simp [kept]
  · intro isLeafBySubtree
    simp [TreeUpdater.finalizeLogEntries, u8TryFrom, show i < 256 by omega, read, extended]

/-- Merging parts of which one holds a single item gives that item, with its part. -/
theorem mergeByIndex_single {T : Type} {n a : Nat} (small : a < n) (item : Nat × T) :
    mergeByIndex ((List.range n).map fun i => if i = a then [item] else []) = [(a, item.2)] := by
  let parts := (List.range n).map fun i => if i = a then [item] else []
  have total : (parts.map List.length).sum = 1 := by
    simp only [parts, List.map_map, Function.comp_def, apply_ite List.length, List.length_cons,
      List.length_nil]
    exact List.sum_range_ite_eq_one small
  have next : MergingIter.next parts = some ((a, item.2), parts.set a []) := by
    have items : (parts.zipIdx.filterMap fun x => x.1.head?.map fun next => (x.2, next)) =
        [(a, item)] := by
      rw [List.zipIdx_map_range, List.filterMap_map]
      apply List.filterMap_range_eq_singleton small
      intro k _
      by_cases same : k = a <;> simp [same]
    have found : parts[a]? = some [item] := by simp [parts, small]
    simp only [MergingIter.next, items, minByKey?, List.foldl_nil, Option.bind_eq_bind,
      Option.bind_some, found]
  -- one item in all: one step of the iterator
  change mergingIter (parts.map List.length).sum parts = _
  rw [total, mergingIter, next]
  rfl

theorem childCount_rootOverLeaf (leaf : LeafNode) (version : Nat) :
    (rootOverLeaf leaf version).childCount ≠ 0 := by
  have small := nibble_lt leaf.fullKey (show 0 < 64 by decide)
  have present : (rootOverLeaf leaf version).children.bitmap.toNat.testBit
      (nibble leaf.fullKey 0).toNat = true := by
    have found := (SmallMap.get_isSome_iff _ _).mp (by
      rw [show (rootOverLeaf leaf version).children.get (nibble leaf.fullKey 0) =
        some (ChildRef.leaf version) by
          simpa [InternalNode.childRef] using childRef_rootOverLeaf leaf version small]
      rfl)
    rwa [Nat.mod_eq_of_lt small] at found
  unfold InternalNode.childCount SmallMap.len
  have := SmallMap.rank_lt_countOnes small present
  omega

/-- `Storage::extend_with_proofs` of an empty block over a root leaf: the leaf moves under an
internal root whose reference to it keeps the blank hash. -/
theorem Storage.extendWithProofs_nil_leafRoot {DB : Type} [Database DB] (storage : Storage DB)
    {v leafCount : Nat} {positive : 0 < leafCount} {leaf : LeafNode}
    (updater : storage.updater =
      WorkingPatchSet.new (v + 1) (.filled leafCount positive (.leaf leaf)))
    (count : storage.leafCount = leafCount) :
    storage.extendWithProofs [] = some (⟨[], leafCount⟩,
      PatchSet.new storage.manifest (v + 1)
        (.filled leafCount positive (.internal (rootOverLeaf leaf (v + 1))))
        (AList.singleton ⟨v + 1, Nibbles.new leaf.fullKey 1⟩ (.leaf leaf))
        [EMPTY.withVersion v] .insert) := by
  let W := WorkingPatchSet.withMovedLeaf leaf (v + 1)
  obtain ⟨rest, parts⟩ : ∃ rest, W.split = W.splitPart 0 :: rest :=
    ⟨_, by rw [WorkingPatchSet.split_eq, SUBTREE_COUNT, List.range_succ_eq_map]; rfl⟩
  let noInstructions : List (List InstructionWithPrecomputes) :=
    (List.range SUBTREE_COUNT).map fun _ => []
  have sortedNil : (SortedKeys.new []).keys = [] := by simp [SortedKeys.new]
  have splitNil : InstructionWithPrecomputes.split [] [] = noInstructions := rfl
  -- every part runs no instruction and stays as it is
  let noLogs : List (Nat × TreeLogEntryWithProof MerklePath) := []
  have unzipped : ((W.split.zip noInstructions).zipIdx.map fun x => (x.1.1, noLogs)).unzip =
      (W.split, W.split.map fun _ => noLogs) := by
    have sameLength : W.split.length ≤ noInstructions.length := by
      rw [WorkingPatchSet.split, List.length_map, List.length_map]
    have firsts := List.map_fst_zip sameLength
    refine Prod.ext ?_ ?_
    · rw [List.unzip_fst, List.map_map]
      rw [show (Prod.fst ∘ fun x : (WorkingPatchSet × List InstructionWithPrecomputes) × Nat =>
          (x.1.1, noLogs)) = Prod.fst ∘ Prod.fst from rfl, ← List.map_map, List.zipIdx_map_fst,
        firsts]
    · simp [List.unzip_snd, List.map_map, Function.comp_def, sameLength]
  have merged := foldl_merge_split_withMovedLeaf leaf (v + 1) parts
  have mergedLogs : mergeByIndex (W.split.map fun _ => noLogs) = [] := by
    simp [mergeByIndex, mergingIter, noLogs]
  unfold Storage.extendWithProofs
  simp only [List.map_nil, updater, WorkingPatchSet.loadAncestors_leaf_root, Option.bind_eq_bind,
    Option.bind_some, ensureInternalRootNode_new_leaf, sortedNil, List.length_nil,
    List.replicate_zero, splitNil]
  rw [List.mapM_eq_some_map fun x => (x.1.1, noLogs)]
  · simp only [Option.bind_some]
    rw [unzipped, mergedLogs]
    simp only [parts, merged, Storage.finalizeWithProofs]
    simp [TreeUpdater.finalizeLogs_nil _ _ _ (childCount_rootOverLeaf leaf (v + 1)), count,
      setRootNode_withMovedLeaf, finalizeWithoutHashing_withMovedLeaf _ _ _ positive]
  · -- each part gets an empty list of instructions and a nibble below 16
    intro x member
    obtain ⟨⟨part, instructions⟩, i⟩ := x
    have index : i < 16 := by
      have inside := (List.mem_zipIdx' member).1
      simpa [noInstructions, WorkingPatchSet.split, SUBTREE_COUNT] using inside
    have empty : instructions = [] := by
      have inInstructions := (List.of_mem_zip (List.fst_mem_of_mem_zipIdx member)).2
      simp only [noInstructions, List.mem_map] at inInstructions
      obtain ⟨_, _, blank⟩ := inInstructions
      exact blank.symm
    subst empty
    simp [u8TryFrom, show i < 256 by omega, TreeUpdater.extendPrecomputed_nil _ _
      (toUInt8_lt_sixteen index), noLogs]

end ZksyncEra.MerkleTree
