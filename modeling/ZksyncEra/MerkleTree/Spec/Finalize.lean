import ZksyncEra.MerkleTree.Spec.WorkingTree

/-!
Finalization writes the working set to the store (`finalize_inner`).

Levels are finalized deepest first. A node of the deepest working level has no working
children, so it holds (`NodeOk.holds`) and hashes to its subtree. `WsInv.retire` writes such a
node to the store at the new version and its hash into the parent's reference, which leaves a
working set of the same kind with one node fewer; `finalizeLevel` retires a whole level,
`finalizeLevels` every level up to the root, where the tree hash comes out.
-/

namespace ZksyncEra.MerkleTree

open Nibbles WorkingPatchSet

/-- The store after writing `patched` as the nodes of `version`. -/
def withPatch (store : NodeStore) (version : Nat) (patched : HashMap NodeKey Node) : NodeStore :=
  fun key => if key.version = version then patched.lookup key else store key

/-- Every reference of an internal node has at most the given version. -/
def RefsBounded (node : Node) (version : Nat) : Prop :=
  ∀ parent, node = .internal parent → ∀ j : UInt8, j.toNat < 16 → ∀ ref,
    parent.childRef j = some ref → ref.version ≤ version

/-! ### Retiring one node -/

section Retire

variable {H : HashTree} {store store' : NodeStore} {contents : Contents}
  {W W' : Nibbles → Option WorkingNode} {version : Nat}

/-- Retiring a working node without working children: it is stored at the new version and its
hash goes into the reference of its parent. What remains is again a working set for the
contents, over the larger store. -/
theorem WsInv.retire (inv : WsInv H store contents W version fun _ => False)
    {q parentNibbles : Nibbles} {j : UInt8} {working parentWorking : WorkingNode}
    {parent : InternalNode} {ref : ChildRef}
    (found : W q = some working)
    (noChild : ∀ i : UInt8, i.toNat < 16 → ∀ child, q.push i = some child → W child = none)
    (split : q.splitLast = some (parentNibbles, j))
    (parentFound : W parentNibbles = some parentWorking)
    (internal : parentWorking.inner = .internal parent) (hasRef : parent.childRef j = some ref)
    (notStored : store (q.withVersion version) = none)
    (written : ∀ key, store' key =
      if key = q.withVersion version then some working.inner else store key)
    (retired : ∀ q', W' q' =
      if q' = q then none
      else if q' = parentNibbles then
        some ⟨.internal (parent.insertChildRef j
          { ref with hash := working.inner.hash H (4 * q.nibbleCount) }), parentWorking.prevVersion⟩
      else W q') :
    WsInv H store' contents W' version fun _ => False := by
  obtain ⟨key, under⟩ := inv.isPrefix found
  have depth := inv.depth_le found
  have nonRoot : q.nibbleCount ≠ 0 := fun zero => by simp [splitLast, zero] at split
  have pushed : parentNibbles.push j = some q := push_of_splitLast under depth split
  have counts := (push_nibbleCount pushed).1
  have hj : j.toNat < 16 := nibble_lt_of_splitLast under depth split
  have parentOk : InternalOk H store contents W parentNibbles parent := by
    have ok := inv.nodeOk _ _ parentFound
    rw [internal] at ok
    exact ok
  have refVersion : ref.version = version := by
    obtain ⟨p', j', pw', parent', ref', split', found', internal', hasRef', fresh⟩ :=
      inv.parent q working found nonRoot
    rw [split] at split'
    cases split'
    rw [parentFound] at found'
    cases found'
    rw [internal] at internal'
    cases internal'
    rw [hasRef] at hasRef'
    cases hasRef'
    exact fresh.resolve_right id
  have extends_ : ∀ key node, store key = some node → store' key = some node := by
    intro key node inStore
    rw [written]
    split
    · rename_i same
      rw [same, notStored] at inStore
      cases inStore
    · exact inStore
  -- the new view: `q` is gone, its parent has the new reference, the rest is unchanged
  let ref' : ChildRef := { ref with hash := working.inner.hash H (4 * q.nibbleCount) }
  let parent' := parent.insertChildRef j ref'
  have parentNe : parentNibbles ≠ q := fun same => by rw [same] at counts; omega
  have lookupQ : W' q = none := by rw [retired, if_pos rfl]
  have lookupParent : W' parentNibbles = some ⟨.internal parent', parentWorking.prevVersion⟩ := by
    rw [retired, if_neg parentNe, if_pos rfl]
  have lookupOther : ∀ q', q' ≠ q → q' ≠ parentNibbles → W' q' = W q' := by
    intro q' notQ notParent
    rw [retired, if_neg notQ, if_neg notParent]
  have childRef' : ∀ i : UInt8, i.toNat < 16 →
      parent'.childRef i = if j = i then some ref' else parent.childRef i :=
    fun i hi => SmallMap.get_insert _ hj hi ref'
  -- children of other nodes keep their types
  have sameType : ∀ q' w, W q' = some w → q' ≠ parentNibbles → ∀ i : UInt8, i.toNat < 16 →
      ∀ child, q'.push i = some child →
        (W' child).map (·.inner.isLeaf) = (W child).map (·.inner.isLeaf) := by
    intro q' w found' notParent i hi child pushed'
    by_cases isQ : child = q
    · have splitQ := inv.splitLast_child found' hi pushed'
      rw [isQ, split, Option.some.injEq, Prod.mk.injEq] at splitQ
      exact absurd splitQ.1.symm notParent
    by_cases isParent : child = parentNibbles
    · rw [isParent, lookupParent, parentFound]
      simp [internal, Node.isLeaf]
    · rw [lookupOther child isQ isParent]
  refine ⟨fun empty => ?_, fun q' w' found' => ?_, fun q' w' prev found' hprev => ?_,
    fun q' w' node i ref'' found' internal' hi hasRef' => ?_, fun q' w' found' nonRoot' => ?_⟩
  · -- the root stays: it is `q`'s ancestor
    exfalso
    have notQ : Nibbles.EMPTY ≠ q := fun same => nonRoot (by rw [← same]; rfl)
    by_cases isParent : Nibbles.EMPTY = parentNibbles
    · rw [isParent, lookupParent] at empty
      cases empty
    · rw [lookupOther _ notQ isParent] at empty
      have gone := (inv.rootEmpty empty).1 q
      rw [found] at gone
      cases gone
  · by_cases isQ : q' = q
    · rw [isQ, lookupQ] at found'
      cases found'
    by_cases isParent : q' = parentNibbles
    · rw [isParent, lookupParent] at found'
      cases found'
      -- the parent: its reference to `q` now names the stored node
      rw [isParent]
      obtain ⟨key₀, under₀⟩ := parentOk.isPrefix
      refine ⟨⟨key₀, under₀⟩, parentOk.depth_lt,
        ⟨j, hj, by rw [childRef' j hj, if_pos rfl]; rfl⟩, fun i hi => ?_⟩
      by_cases same : j = i
      · subst same
        have isLeaf : working.inner.isLeaf = ref.isLeaf := by
          obtain ⟨child, pushed', childOk⟩ := (slotOk_of_some hasRef).mp (parentOk.slots j hi)
          rw [pushed] at pushed'
          cases pushed'
          exact (childOk_of_working found).mp childOk
        refine (slotOk_of_some (by rw [childRef' j hi, if_pos rfl])).mpr ⟨q, pushed, ?_⟩
        refine (childOk_of_stored lookupQ).mpr ⟨working.inner, ?_, isLeaf, rfl,
          ((inv.nodeOk q working found).holds noChild).mono extends_⟩
        show store' (q.withVersion ref.version) = _
        rw [refVersion, written, if_pos rfl]
      · have sameRef : parent'.childRef i = parent.childRef i := by rw [childRef' i hi, if_neg same]
        rw [slotOk_congr sameRef]
        refine (parentOk.slots i hi).transfer under₀ parentOk.depth_lt hi extends_
          (fun _ _ _ => rfl) fun child pushed' => ?_
        have notQ : child ≠ q := fun isQ => by
          have splitChild := splitLast_of_push under₀ parentOk.depth_lt hi pushed'
          rw [isQ, split, Option.some.injEq, Prod.mk.injEq] at splitChild
          exact same splitChild.2
        have notParent : child ≠ parentNibbles := fun isParent => by
          have childCount := (push_nibbleCount pushed').1
          rw [isParent] at childCount
          omega
        rw [lookupOther child notQ notParent]
    · rw [lookupOther q' isQ isParent] at found'
      exact (inv.nodeOk q' w' found').transfer extends_ (fun _ _ => rfl)
        (sameType q' w' found' isParent)
  · by_cases isQ : q' = q
    · rw [isQ, lookupQ] at found'
      cases found'
    by_cases isParent : q' = parentNibbles
    · rw [isParent, lookupParent] at found'
      cases found'
      exact inv.prevLt _ _ prev parentFound hprev
    · rw [lookupOther q' isQ isParent] at found'
      exact inv.prevLt _ _ prev found' hprev
  · by_cases isQ : q' = q
    · rw [isQ, lookupQ] at found'
      cases found'
    by_cases isParent : q' = parentNibbles
    · rw [isParent, lookupParent] at found'
      cases found'
      cases internal'
      rw [childRef' i hi] at hasRef'
      split at hasRef'
      · cases hasRef'
        exact inv.refsLe _ _ _ j ref parentFound internal hj hasRef
      · exact inv.refsLe _ _ _ i ref'' parentFound internal hi hasRef'
    · rw [lookupOther q' isQ isParent] at found'
      exact inv.refsLe _ _ _ i ref'' found' internal' hi hasRef'
  · have notQ : q' ≠ q := fun isQ => by
      rw [isQ, lookupQ] at found'
      cases found'
    -- the parent of `q'` is still there, with its reference to `q'`
    have foundOld : ∃ w, W q' = some w := by
      by_cases isParent : q' = parentNibbles
      · exact ⟨parentWorking, isParent ▸ parentFound⟩
      · exact ⟨w', (lookupOther q' notQ isParent) ▸ found'⟩
    obtain ⟨w, foundOld⟩ := foundOld
    obtain ⟨p', j', pw', pn', r', split', found'', internal'', hasRef'', fresh⟩ :=
      inv.parent q' w foundOld nonRoot'
    have notQ' : p' ≠ q := fun isQ => by
      obtain ⟨key', under'⟩ := inv.isPrefix foundOld
      have pushedQ := push_of_splitLast under' (inv.depth_le foundOld) split'
      rw [isQ] at pushedQ
      have gone := noChild j' (nibble_lt_of_splitLast under' (inv.depth_le foundOld) split') q'
        pushedQ
      rw [foundOld] at gone
      cases gone
    by_cases isParent : p' = parentNibbles
    · rw [isParent, parentFound] at found''
      cases found''
      rw [internal] at internal''
      cases internal''
      obtain ⟨key', under'⟩ := inv.isPrefix foundOld
      have hj' := nibble_lt_of_splitLast under' (inv.depth_le foundOld) split'
      refine ⟨p', j', _, parent', if j = j' then ref' else r', split', by rw [isParent,
        lookupParent], rfl, by rw [childRef' j' hj']; split <;> simp_all, ?_⟩
      split
      · exact Or.inl refVersion
      · exact fresh
    · exact ⟨p', j', pw', pn', r', split', by rw [lookupOther p' notQ' isParent]; exact found'',
        internal'', hasRef'', fresh⟩

end Retire

/-! ### Finalizing a level -/

/-- One node of `finalizeLevel` whose version moved past the one it was loaded with: its hash
goes into the parent's reference and the node is written under the reference's version. -/
theorem finalizeLevel_cons_of_replaced {operation : Operation} {nibbles parentNibbles : Nibbles}
    {j : UInt8} {nodeHash : ValueHash} {node parent : WorkingNode} {parentNode : InternalNode}
    {ref : ChildRef} {rest : List (Nibbles × Option ValueHash × WorkingNode)}
    {upper : LevelChanges} {patched : HashMap NodeKey Node} {staleKeys : List NodeKey}
    (split : nibbles.splitLast = some (parentNibbles, j))
    (parentFound : upper.lookup parentNibbles.bytes = some parent)
    (internal : parent.inner = .internal parentNode) (hasRef : parentNode.childRef j = some ref)
    (replaced : ∀ prev, node.prevVersion = some prev → prev < ref.version) :
    finalizeLevel operation ((nibbles, some nodeHash, node) :: rest) upper patched staleKeys =
      finalizeLevel operation rest
        (upper.insert parentNibbles.bytes
          ⟨.internal (parentNode.insertChildRef j { ref with hash := nodeHash }),
            parent.prevVersion⟩)
        (patched.insert (nibbles.withVersion ref.version) node.inner)
        (match node.prevVersion with
          | some prev => staleKeys ++ [nibbles.withVersion prev]
          | none => staleKeys) := by
  cases hprev : node.prevVersion with
  | none =>
    simp [finalizeLevel, split, parentFound, internal, hasRef, InternalNode.updateChildRef, hprev]
  | some prev =>
    simp [finalizeLevel, split, parentFound, internal, hasRef, InternalNode.updateChildRef, hprev,
      replaced prev hprev]

section Level

variable {H : HashTree} {store : NodeStore} {contents : Contents} {version : Nat}

/-- The store with one more written node. -/
private theorem withPatch_insert (store : NodeStore) (version : Nat)
    (patched : HashMap NodeKey Node) (q : Nibbles) (node : Node) (key : NodeKey) :
    withPatch store version (patched.insert (q.withVersion version) node) key =
      if key = q.withVersion version then some node else withPatch store version patched key := by
  unfold withPatch
  by_cases same : key = q.withVersion version
  · rw [if_pos same, if_pos (by rw [same]; rfl), same, AList.lookup_insert]
  · rw [if_neg same]
    split
    · rw [AList.lookup_insert_ne same]
    · rfl

/-- Finalizing the rest of a level: stated for the nodes `rest` still to be finalized, below the
parent level `upper` and the levels `lower` above it, because that is what the induction over the
level needs. The level is gone afterwards, its nodes written and their hashes in their parents. -/
theorem finalizeLevel_spec (operation : Operation) (lower : List LevelChanges) :
    ∀ (rest : List ((_ : NibblesBytes) × WorkingNode)) (nodup : rest.NodupKeys)
      (upper : LevelChanges) (patched : HashMap NodeKey Node) (staleKeys : List NodeKey),
    WsInv H (withPatch store version patched) contents
      (levelsView (lower ++ [upper, ⟨rest, nodup⟩])) version (fun _ => False) →
    (∀ key node, patched.lookup key = some node →
      levelsView (lower ++ [upper, ⟨rest, nodup⟩]) key.nibbles = none) →
    levelsView (lower ++ [upper, ⟨rest, nodup⟩]) Nibbles.EMPTY ≠ none →
    (∀ key node, patched.lookup key = some node → RefsBounded node version) →
    ∃ upper' patched' staleKeys',
      finalizeLevel operation (rest.map fun entry =>
        (Nibbles.fromParts entry.1 (lower.length + 1),
          some (entry.2.inner.hash H ((lower.length + 1) * 4)), entry.2))
        upper patched staleKeys = some (upper', patched', staleKeys') ∧
      WsInv H (withPatch store version patched') contents (levelsView (lower ++ [upper']))
        version (fun _ => False) ∧
      (∀ key node, patched'.lookup key = some node →
        levelsView (lower ++ [upper']) key.nibbles = none) ∧
      levelsView (lower ++ [upper']) Nibbles.EMPTY ≠ none ∧
      (∀ key node, patched'.lookup key = some node → RefsBounded node version) := by
  intro rest
  induction rest with
  | nil =>
    intro nodup upper patched staleKeys inv written rootPresent bounded
    -- an empty level adds no positions
    have sameView : levelsView (lower ++ [upper, ⟨[], nodup⟩]) = levelsView (lower ++ [upper]) := by
      funext q
      rw [levelsView_append_pair, levelsView_append_singleton]
      split
      · rename_i beyond
        rw [if_neg (by omega), levelsView, List.getElem?_eq_none (by omega)]
        rfl
      · rfl
    rw [sameView] at inv written rootPresent
    exact ⟨upper, patched, staleKeys, rfl, inv, written, rootPresent, bounded⟩
  | cons entry rest ih =>
    intro nodup upper patched staleKeys inv written rootPresent bounded
    obtain ⟨bytes, working⟩ := entry
    let q := Nibbles.fromParts bytes (lower.length + 1)
    set V := levelsView (lower ++ [upper, ⟨⟨bytes, working⟩ :: rest, nodup⟩]) with hV
    have restNodup : rest.NodupKeys := (List.nodupKeys_cons.mp nodup).2
    have fresh : bytes ∉ rest.keys := (List.nodupKeys_cons.mp nodup).1
    have found : V q = some working := by
      simp only [V, levelsView_append_pair, q, Nibbles.fromParts]
      exact List.dlookup_cons_eq _ _ _
    obtain ⟨parentNibbles, j, parent, parentNode, ref, split, parentFound, internal, hasRef,
      refVersion⟩ := inv.parent q working found (by simp [q, Nibbles.fromParts])
    replace refVersion : ref.version = version := refVersion.resolve_right id
    obtain ⟨key, under⟩ := inv.isPrefix found
    have depth := inv.depth_le found
    have pushed := push_of_splitLast under depth split
    have counts := (push_nibbleCount pushed).1
    have parentCount : parentNibbles.nibbleCount = lower.length := by
      simp only [q, Nibbles.fromParts] at counts
      omega
    have parentInUpper : upper.lookup parentNibbles.bytes = some parent := by
      have lookedUp := parentFound
      rw [hV, levelsView_append_pair, parentCount, if_neg (by omega), if_pos rfl] at lookedUp
      exact lookedUp
    have replaced : ∀ prev, working.prevVersion = some prev → prev < ref.version := by
      intro prev hprev
      rw [refVersion]
      exact inv.prevLt q working prev found hprev
    let hash := working.inner.hash H ((lower.length + 1) * 4)
    let upper' := upper.insert parentNibbles.bytes
      ⟨.internal (parentNode.insertChildRef j { ref with hash := hash }), parent.prevVersion⟩
    let patched' := patched.insert (q.withVersion ref.version) working.inner
    let V' := levelsView (lower ++ [upper', ⟨rest, restNodup⟩])
    -- the view after this node: it is gone, and its parent has the new reference
    have retired : ∀ q', V' q' =
        if q' = q then none
        else if q' = parentNibbles then
          some ⟨.internal (parentNode.insertChildRef j
            { ref with hash := working.inner.hash H (4 * q.nibbleCount) }), parent.prevVersion⟩
        else V q' := by
      intro q'
      have sameHash : working.inner.hash H (4 * q.nibbleCount) = hash := by
        show working.inner.hash H (4 * (lower.length + 1)) =
          working.inner.hash H ((lower.length + 1) * 4)
        rw [Nat.mul_comm]
      rw [sameHash]
      simp only [V', V, levelsView_append_pair]
      by_cases isQ : q' = q
      · have bytesEq : q'.bytes = bytes := by rw [isQ]; rfl
        rw [if_pos isQ, if_pos (by rw [isQ]; rfl), bytesEq]
        exact List.dlookup_eq_none.mpr fresh
      rw [if_neg isQ]
      by_cases isParent : q' = parentNibbles
      · rw [if_pos isParent, isParent, if_neg (by omega), if_pos parentCount]
        exact AList.lookup_insert _
      rw [if_neg isParent]
      split
      · rename_i sameCount
        have otherBytes : q'.bytes ≠ bytes := fun same =>
          isQ (nibbles_eq_iff.mpr ⟨sameCount, same⟩)
        exact (List.dlookup_cons_ne _ _ otherBytes).symm
      · split
        · rename_i sameCount
          have otherBytes : q'.bytes ≠ parentNibbles.bytes := fun same =>
            isParent (nibbles_eq_iff.mpr ⟨sameCount.trans parentCount.symm, same⟩)
          exact AList.lookup_insert_ne otherBytes
        · rfl
    have notStored : withPatch store version patched (q.withVersion version) = none := by
      unfold withPatch
      rw [if_pos (show (q.withVersion version).version = version from rfl)]
      cases stored : patched.lookup (q.withVersion version) with
      | none => rfl
      | some node =>
        have gone := written _ node stored
        rw [show (q.withVersion version).nibbles = q from rfl, found] at gone
        cases gone
    have noChild : ∀ i : UInt8, i.toNat < 16 → ∀ child, q.push i = some child → V child = none := by
      intro i _ child pushedChild
      have childCount := (push_nibbleCount pushedChild).1
      simp only [V, levelsView_append_pair, levelsView]
      rw [if_neg (by simp only [q, Nibbles.fromParts] at childCount; omega),
        if_neg (by simp only [q, Nibbles.fromParts] at childCount; omega),
        List.getElem?_eq_none (by simp only [q, Nibbles.fromParts] at childCount; omega)]
      rfl
    have stored' : ∀ key, withPatch store version patched' key =
        if key = q.withVersion version then some working.inner
        else withPatch store version patched key := by
      intro key
      simp only [patched']
      rw [refVersion]
      exact withPatch_insert store version patched q working.inner key
    have inv' : WsInv H (withPatch store version patched') contents V' version (fun _ => False) :=
      inv.retire found noChild split parentFound internal hasRef notStored stored' retired
    have written' : ∀ key node, patched'.lookup key = some node → V' key.nibbles = none := by
      intro key node stored
      by_cases same : key = q.withVersion ref.version
      · rw [same, retired, if_pos (show (q.withVersion ref.version).nibbles = q from rfl)]
      · rw [AList.lookup_insert_ne same] at stored
        have gone := written key node stored
        have notParent : key.nibbles ≠ parentNibbles := fun isParent => by
          rw [isParent, parentFound] at gone
          cases gone
        have notQ : key.nibbles ≠ q := fun isQ => by
          rw [isQ, found] at gone
          cases gone
        rw [retired, if_neg notQ, if_neg notParent, gone]
    have rootPresent' : V' Nibbles.EMPTY ≠ none := by
      have notQ : Nibbles.EMPTY ≠ q := fun same => by
        have := congrArg Nibbles.nibbleCount same
        simp [q, Nibbles.fromParts, Nibbles.EMPTY] at this
      rw [retired, if_neg notQ]
      split
      · simp
      · exact rootPresent
    have bounded' : ∀ key node, patched'.lookup key = some node → RefsBounded node version := by
      intro key node stored
      by_cases same : key = q.withVersion ref.version
      · rw [same, AList.lookup_insert] at stored
        cases stored
        exact fun parent isInternal i hi ref hasRef =>
          inv.refsLe q working parent i ref found isInternal hi hasRef
      · rw [AList.lookup_insert_ne same] at stored
        exact bounded key node stored
    obtain ⟨upper'', patched'', staleKeys'', run, result⟩ :=
      ih restNodup upper' patched' _ inv' written' rootPresent' bounded'
    refine ⟨upper'', patched'', staleKeys'', ?_, result⟩
    rw [List.map_cons, finalizeLevel_cons_of_replaced split parentInUpper internal hasRef replaced]
    exact run

end Level

/-! ### Finalizing every level -/

/-- Every reference of a root node has at most the given version. -/
def RootRefsBounded (root : Root) (version : Nat) : Prop :=
  match root with
  | .empty => True
  | .filled _ _ node => RefsBounded node version

section Levels

variable {H : HashTree} {store : NodeStore} {contents : Contents} {version : Nat}
  (manifest : Manifest) (leafCount : Nat)
  (mapLevelChanges : Nat → LevelChanges → List (Nibbles × Option ValueHash × WorkingNode))

/-- The hashing of `finalize`: each node with its hash at its level. -/
def HashesLevels (H : HashTree) : Prop :=
  ∀ nibbleCount levelChanges, mapLevelChanges nibbleCount levelChanges =
    levelChanges.entries.map fun entry =>
      (Nibbles.fromParts entry.1 nibbleCount, some (entry.2.inner.hash H (nibbleCount * 4)),
        entry.2)

/-- At the root level: the only working node is the root, which holds. -/
theorem finalizeLevels_root (hashing : HashesLevels mapLevelChanges H) {level : LevelChanges}
    {patched : HashMap NodeKey Node} {staleKeys : List NodeKey}
    (inv : WsInv H (withPatch store version patched) contents (levelsView [level]) version
      (fun _ => False))
    (rootPresent : levelsView [level] Nibbles.EMPTY ≠ none)
    (leafCountPos : ∀ key, (contents key).isSome → 0 < leafCount) :
    ∃ rootHash root staleKeys',
      finalizeLevels version .insert manifest leafCount mapLevelChanges level [] patched staleKeys =
        some (some rootHash, PatchSet.new manifest version root patched staleKeys' .insert) ∧
      rootHash = treeHash H contents ∧
      RootHolds H (withPatch store version patched) contents root ∧ root.leafCount = leafCount ∧
      RootRefsBounded root version := by
  -- the level has an entry, and its first entry is the root
  obtain ⟨entry, rest, entries⟩ : ∃ entry rest, level.entries = entry :: rest := by
    cases entries : level.entries with
    | nil =>
      exfalso
      apply rootPresent
      simp [levelsView, AList.lookup, entries, Nibbles.EMPTY]
    | cons entry rest => exact ⟨entry, rest, rfl⟩
  let q := Nibbles.fromParts entry.1 0
  have found : levelsView [level] q = some entry.2 := by
    simp only [levelsView, q, Nibbles.fromParts, List.getElem?_cons_zero, Option.bind_some,
      AList.lookup, entries]
    exact List.dlookup_cons_eq _ _ _
  obtain ⟨key, under⟩ := inv.isPrefix found
  have isRoot : q = Nibbles.EMPTY := by
    rw [← new_zero key]
    exact under.symm
  have noChild : ∀ i : UInt8, i.toNat < 16 → ∀ child, q.push i = some child →
      levelsView [level] child = none := by
    intro i _ child pushed
    have childCount := (push_nibbleCount pushed).1
    simp only [levelsView]
    rw [List.getElem?_eq_none (by simp only [q, Nibbles.fromParts] at childCount; simp; omega)]
    rfl
  have holds := (inv.nodeOk q entry.2 found).holds noChild
  rw [isRoot] at holds
  obtain ⟨present, -, isPresent⟩ := holds.exists_present
  have positive := leafCountPos present isPresent
  have hashEq : entry.2.inner.hash H (0 * 4) = treeHash H contents := by
    have hashEq := holds.hash_eq (new_zero key)
    rw [show Nibbles.EMPTY.nibbleCount = 0 from rfl, prefixValue_zero, prefixHash_zero] at hashEq
    exact hashEq
  have run : finalizeLevels version .insert manifest leafCount mapLevelChanges level [] patched
      staleKeys = some (some (entry.2.inner.hash H (0 * 4)),
        PatchSet.new manifest version (.filled leafCount positive entry.2.inner) patched
          (match entry.2.prevVersion with
            | some prev => staleKeys ++ [(Nibbles.fromParts entry.1 0).withVersion prev]
            | none => staleKeys) .insert) := by
    unfold HashesLevels at hashing
    cases hprev : entry.2.prevVersion <;>
      simp [finalizeLevels, hashing, entries, Root.new, positive, hprev]
  exact ⟨_, _, _, run, hashEq, holds, rfl,
    fun parent isInternal i hi ref hasRef => inv.refsLe q entry.2 parent i ref found isInternal hi hasRef⟩

/-- Finalizing the levels from `level` up to the root gives the tree hash and a root that holds
in the store with every written node. -/
theorem finalizeLevels_spec (hashing : HashesLevels mapLevelChanges H)
    (leafCountPos : ∀ key, (contents key).isSome → 0 < leafCount) :
    ∀ (upper : List LevelChanges) (level : LevelChanges) (patched : HashMap NodeKey Node)
      (staleKeys : List NodeKey),
    WsInv H (withPatch store version patched) contents (levelsView (upper.reverse ++ [level]))
      version (fun _ => False) →
    (∀ key node, patched.lookup key = some node →
      levelsView (upper.reverse ++ [level]) key.nibbles = none) →
    levelsView (upper.reverse ++ [level]) Nibbles.EMPTY ≠ none →
    (∀ key node, patched.lookup key = some node → RefsBounded node version) →
    ∃ rootHash root patched' staleKeys',
      finalizeLevels version .insert manifest leafCount mapLevelChanges level upper patched
          staleKeys =
        some (some rootHash, PatchSet.new manifest version root patched' staleKeys' .insert) ∧
      rootHash = treeHash H contents ∧
      RootHolds H (withPatch store version patched') contents root ∧ root.leafCount = leafCount ∧
      RootRefsBounded root version ∧
      (∀ key node, patched'.lookup key = some node → RefsBounded node version) := by
  intro upper
  induction upper with
  | nil =>
    intro level patched staleKeys inv _ rootPresent bounded
    obtain ⟨rootHash, root, staleKeys', run, result⟩ :=
      finalizeLevels_root manifest leafCount mapLevelChanges hashing inv rootPresent leafCountPos
    exact ⟨rootHash, root, patched, staleKeys', run, result.1, result.2.1, result.2.2.1,
      result.2.2.2, bounded⟩
  | cons upperLevel rest ih =>
    intro level patched staleKeys inv written rootPresent bounded
    -- the levels are `rest` reversed, then the parent level, then `level`
    have levels : (upperLevel :: rest).reverse ++ [level] =
        rest.reverse ++ [upperLevel, ⟨level.entries, level.nodupKeys⟩] := by simp
    rw [levels] at inv written rootPresent
    obtain ⟨upper', patched', staleKeys', run, inv', written', rootPresent', bounded'⟩ :=
      finalizeLevel_spec .insert rest.reverse level.entries level.nodupKeys upperLevel patched
        staleKeys inv written rootPresent bounded
    rw [List.length_reverse] at run
    obtain ⟨rootHash, root, patched'', staleKeys'', run', result⟩ :=
      ih upper' patched' staleKeys' inv' written' rootPresent' bounded'
    refine ⟨rootHash, root, patched'', staleKeys'', ?_, result⟩
    unfold HashesLevels at hashing
    simp only [finalizeLevels, hashing]
    rw [run]
    exact run'

end Levels

/-! ### `finalize` -/

/-- A level list with an entry somewhere has a working node. -/
theorem exists_working_of_sum_ne_zero {self : WorkingPatchSet}
    (nonempty : (self.changesByNibbleCount.map (·.entries.length)).sum ≠ 0) :
    ∃ q working, self.getWorking q = some working := by
  obtain ⟨length, member, positive⟩ : ∃ x ∈ self.changesByNibbleCount.map (·.entries.length), x ≠ 0 := by
    by_contra allZero
    push Not at allZero
    exact nonempty (List.sum_eq_zero_iff_forall_eq_nat.mpr allZero)
  obtain ⟨level, inLevels, rfl⟩ := List.mem_map.mp member
  obtain ⟨i, atIndex⟩ := List.mem_iff_getElem?.mp inLevels
  obtain ⟨entry, rest, entries⟩ : ∃ entry rest, level.entries = entry :: rest := by
    cases entries : level.entries with
    | nil => rw [entries] at positive; exact absurd rfl positive
    | cons entry rest => exact ⟨entry, rest, rfl⟩
  refine ⟨⟨i, entry.1⟩, entry.2, ?_⟩
  simp only [getWorking, atIndex, Option.bind_some, AList.lookup, entries]
  exact List.dlookup_cons_eq _ _ _

/-- `finalize` of a working set that stands for the contents, with no pending node: the root
hash is the tree hash, every working node is written at the new version, and the new root holds
in the store with them. -/
theorem finalize_spec {H : HashTree} {store : NodeStore} {contents : Contents}
    (W : WorkingPatchSet) (manifest : Manifest) (leafCount : Nat)
    (inv : WsInv H store contents W.getWorking W.rootVersion fun _ => False)
    (fresh : ∀ key node, store key = some node → key.version < W.rootVersion)
    (leafCountPos : ∀ key, (contents key).isSome → 0 < leafCount) :
    ∃ root patched staleKeys,
      W.finalize manifest leafCount .insert H = some (treeHash H contents,
        PatchSet.new manifest W.rootVersion root patched staleKeys .insert) ∧
      RootHolds H (withPatch store W.rootVersion patched) contents root ∧
      (root = .empty ∨ root.leafCount = leafCount) ∧ RootRefsBounded root W.rootVersion ∧
      ∀ key node, patched.lookup key = some node → RefsBounded node W.rootVersion := by
  have storeEq : withPatch store W.rootVersion ∅ = store := by
    funext key
    unfold withPatch
    split
    · rename_i sameVersion
      cases stored : store key with
      | none => rfl
      | some node => exact absurd (fresh key node stored) (by omega)
    · rfl
  unfold finalize finalizeInner
  by_cases empty : (W.changesByNibbleCount.map (·.entries.length)).sum = 0
  · -- nothing is working, so nothing is present
    have vacant : ∀ key, contents key = none := by
      apply (inv.rootEmpty _).2
      simp only [getWorking]
      cases atRoot : W.changesByNibbleCount[Nibbles.EMPTY.nibbleCount]? with
      | none => rfl
      | some level =>
        have member := List.mem_of_getElem? atRoot
        have zero := List.sum_eq_zero_iff_forall_eq_nat.mp empty _ (List.mem_map_of_mem member)
        simp only [AList.lookup, List.length_eq_zero_iff.mp zero, Option.bind_some]
        rfl
    have rootHolds : RootHolds H store contents .empty := vacant
    have hashEq : H.emptyTreeHash = treeHash H contents := rootHolds.hash_eq
    refine ⟨.empty, ∅, if 1 ≤ W.rootVersion then [Nibbles.EMPTY.withVersion (W.rootVersion - 1)]
      else [], ?_, vacant, Or.inl rfl, trivial, fun _ _ stored => by cases stored⟩
    simp only [empty, if_true, hashEq]
    rfl
  · obtain ⟨q, working, found⟩ := exists_working_of_sum_ne_zero empty
    -- the root is working: it is an ancestor of every working node
    have rootPresent : W.getWorking Nibbles.EMPTY ≠ none := by
      obtain ⟨key, under⟩ := inv.isPrefix found
      rw [← under] at found
      rw [← new_zero key]
      cases count : q.nibbleCount with
      | zero => rw [count] at found; rw [found]; simp
      | succ n =>
        rw [count] at found
        obtain ⟨_, _, _, rootFound, -, -⟩ := inv.ancestor (by rw [found]; rfl) (Nat.succ_pos n)
        rw [rootFound]
        simp
    obtain ⟨level, upper, levels⟩ : ∃ level upper, W.changesByNibbleCount.reverse = level :: upper := by
      cases reversed : W.changesByNibbleCount.reverse with
      | nil =>
        rw [List.reverse_eq_nil_iff] at reversed
        rw [reversed] at empty
        exact absurd rfl empty
      | cons level upper => exact ⟨level, upper, rfl⟩
    have view : W.getWorking = levelsView (upper.reverse ++ [level]) := by
      rw [getWorking_eq_levelsView, ← List.reverse_cons, ← levels, List.reverse_reverse]
    rw [view, ← storeEq] at inv
    rw [view] at rootPresent
    obtain ⟨rootHash, root, patched, staleKeys, run, hashEq, holds, count, rootBounded, bounded⟩ :=
      finalizeLevels_spec manifest leafCount _ (fun _ _ => rfl) leafCountPos upper level ∅ [] inv
        (fun _ _ stored => by cases stored) rootPresent (fun _ _ stored => by cases stored)
    refine ⟨root, patched, staleKeys, ?_, holds, Or.inr count, rootBounded, bounded⟩
    simp only [empty, if_false, levels, run, hashEq]
    rfl

end ZksyncEra.MerkleTree
