import ZksyncEra.MerkleTree.Patch
import ZksyncEra.MerkleTree.Spec.StoredTree

/-!
The working patch set as a partial tree over the node store.

`getWorking` is a finite map from positions to working nodes; the first part gives the effect of
every operation of `WorkingPatchSet` on it, so that later proofs never unfold the level lists.
`WsInv` is what holds of it between the steps of an update: every working node is well formed
for the contents (`NodeOk`), each child reference naming either another working node of the
same type or a stored node that holds (`SlotOk`); every working node below the root hangs from a
working internal node; no version exceeds the one being created. A working node whose children
are all stored holds, and so hashes to its subtree (`NodeOk.holds`): finalization is built on
that.
-/

namespace ZksyncEra.MerkleTree

open Nibbles

theorem nibbles_eq_iff {x y : Nibbles} :
    x = y ↔ x.nibbleCount = y.nibbleCount ∧ x.bytes = y.bytes := by
  cases x
  cases y
  simp

namespace WorkingPatchSet

/-! ### Lookups after each operation -/

/-- Replacing the level of `key` by that level with `key` inserted. -/
theorem lookup_set_insert (levels : List LevelChanges) {key : Nibbles}
    (hlen : key.nibbleCount < levels.length) (level : LevelChanges) (entry : WorkingNode)
    (q : Nibbles) :
    ((levels.set key.nibbleCount (level.insert key.bytes entry))[q.nibbleCount]?).bind
        (·.lookup q.bytes) =
      if q = key then some entry
      else if q.nibbleCount = key.nibbleCount then level.lookup q.bytes
      else (levels[q.nibbleCount]?).bind (·.lookup q.bytes) := by
  rw [List.getElem?_set]
  by_cases sameCount : key.nibbleCount = q.nibbleCount
  · rw [if_pos sameCount, if_pos hlen, Option.bind_some]
    by_cases sameBytes : q.bytes = key.bytes
    · rw [if_pos (nibbles_eq_iff.mpr ⟨sameCount.symm, sameBytes⟩), sameBytes,
        AList.lookup_insert]
    · rw [if_neg (fun same => sameBytes (nibbles_eq_iff.mp same).2), if_pos sameCount.symm,
        AList.lookup_insert_ne sameBytes]
  · rw [if_neg sameCount, if_neg (fun same => sameCount (nibbles_eq_iff.mp same).1.symm),
      if_neg (Ne.symm sameCount)]

/-- Padding with empty levels answers every lookup as before. -/
theorem lookup_pad (levels : List LevelChanges) (extra : Nat) (q : Nibbles) :
    ((levels ++ List.replicate extra ∅)[q.nibbleCount]?).bind (·.lookup q.bytes) =
      (levels[q.nibbleCount]?).bind (·.lookup q.bytes) := by
  by_cases inside : q.nibbleCount < levels.length
  · rw [List.getElem?_append_left inside]
  · have outside : levels.length ≤ q.nibbleCount := Nat.le_of_not_lt inside
    rw [List.getElem?_append_right outside, List.getElem?_eq_none outside, List.getElem?_replicate]
    split <;> rfl

theorem getWorking_insert (self : WorkingPatchSet) (key : Nibbles) (node : Node) (q : Nibbles) :
    (self.insert key node).getWorking q =
      if q = key then some ⟨node, (self.getWorking key).bind (·.prevVersion)⟩
      else self.getWorking q := by
  let levels := self.changesByNibbleCount
  let padded := if key.nibbleCount ≥ levels.length then
      levels ++ List.replicate (key.nibbleCount + 1 - levels.length) ∅
    else levels
  have samePadded : ∀ q : Nibbles,
      (padded[q.nibbleCount]?).bind (·.lookup q.bytes) = self.getWorking q := by
    intro q
    simp only [padded]
    split
    · exact lookup_pad levels _ q
    · rfl
  have long : key.nibbleCount < padded.length := by
    simp only [padded]
    split
    · simp only [List.length_append, List.length_replicate]
      omega
    · omega
  obtain ⟨level, hlevel⟩ : ∃ level, padded[key.nibbleCount]? = some level :=
    ⟨_, List.getElem?_eq_getElem long⟩
  have oldEntry : level.lookup key.bytes = self.getWorking key := by
    rw [← samePadded key, hlevel, Option.bind_some]
  -- the entry `insert` writes keeps the previous version of the node it replaces
  obtain ⟨entry, step, written⟩ : ∃ entry : WorkingNode,
      (self.insert key node).getWorking q =
        ((padded.set key.nibbleCount ((padded[key.nibbleCount]?.getD ∅).insert key.bytes
          entry))[q.nibbleCount]?).bind (·.lookup q.bytes) ∧
      entry = ⟨node, ((padded[key.nibbleCount]?.getD ∅).lookup key.bytes).bind (·.prevVersion)⟩ := by
    refine ⟨_, rfl, ?_⟩
    split <;> simp_all [padded, levels]
  rw [step, hlevel, Option.getD_some, lookup_set_insert padded long]
  by_cases same : q = key
  · rw [if_pos same, if_pos same, written, hlevel, Option.getD_some, oldEntry]
  · rw [if_neg same, if_neg same]
    split
    · rename_i sameCount
      rw [← samePadded q, sameCount, hlevel, Option.bind_some]
    · exact samePadded q

@[simp] theorem insert_rootVersion (self : WorkingPatchSet) (key : Nibbles) (node : Node) :
    (self.insert key node).rootVersion = self.rootVersion := rfl

/-- Replacing the node at `key` on its level changes the working set at `key` only. -/
theorem getWorking_set_insert {self : WorkingPatchSet} {key : Nibbles} {level : LevelChanges}
    (hlevel : self.changesByNibbleCount[key.nibbleCount]? = some level) (entry : WorkingNode)
    (q : Nibbles) :
    (WorkingPatchSet.mk self.rootVersion
        (self.changesByNibbleCount.set key.nibbleCount (level.insert key.bytes entry))).getWorking q =
      if q = key then some entry else self.getWorking q := by
  have long : key.nibbleCount < self.changesByNibbleCount.length :=
    (List.getElem?_eq_some_iff.mp hlevel).1
  rw [getWorking, lookup_set_insert _ long]
  by_cases same : q = key
  · rw [if_pos same, if_pos same]
  · rw [if_neg same, if_neg same]
    split
    · rename_i sameCount
      rw [getWorking, sameCount, hlevel, Option.bind_some]
    · rfl

/-- A successful `updateInternal` replaces the internal node at `key` and nothing else. -/
theorem updateInternal_eq_some {self : WorkingPatchSet} {key : Nibbles}
    {f : InternalNode → Option InternalNode} {node : WorkingNode} {parent parent' : InternalNode}
    (found : self.getWorking key = some node) (internal : node.inner = .internal parent)
    (changed : f parent = some parent') :
    ∃ self', self.updateInternal key f = some self' ∧ self'.rootVersion = self.rootVersion ∧
      ∀ q, self'.getWorking q =
        if q = key then some ⟨.internal parent', node.prevVersion⟩ else self.getWorking q := by
  obtain ⟨level, hlevel, hnode⟩ := Option.bind_eq_some_iff.mp found
  refine ⟨⟨self.rootVersion, self.changesByNibbleCount.set key.nibbleCount
    (level.insert key.bytes ⟨.internal parent', node.prevVersion⟩)⟩, ?_, rfl,
    getWorking_set_insert hlevel _⟩
  simp [updateInternal, hlevel, hnode, internal, changed]

/-- `updateChildRef` changes the reference at `childNibble` of the internal node at `key`. -/
theorem updateChildRef_eq_some {self : WorkingPatchSet} {key : Nibbles} {childNibble : UInt8}
    {f : ChildRef → ChildRef} {node : WorkingNode} {parent : InternalNode} {ref : ChildRef}
    (found : self.getWorking key = some node) (internal : node.inner = .internal parent)
    (hasRef : parent.childRef childNibble = some ref) :
    ∃ self', self.updateChildRef key childNibble f = some self' ∧
      self'.rootVersion = self.rootVersion ∧
      ∀ q, self'.getWorking q =
        if q = key then some ⟨.internal (parent.insertChildRef childNibble (f ref)), node.prevVersion⟩
        else self.getWorking q :=
  updateInternal_eq_some found internal (by simp [InternalNode.updateChildRef, hasRef])

/-- The positions of a list of levels, as `getWorking` reads them. -/
def levelsView (levels : List LevelChanges) (q : Nibbles) : Option WorkingNode :=
  (levels[q.nibbleCount]?).bind (·.lookup q.bytes)

theorem getWorking_eq_levelsView (self : WorkingPatchSet) :
    self.getWorking = levelsView self.changesByNibbleCount := rfl

theorem levelsView_append_singleton (levels : List LevelChanges) (level : LevelChanges)
    (q : Nibbles) :
    levelsView (levels ++ [level]) q =
      if q.nibbleCount = levels.length then level.lookup q.bytes else levelsView levels q := by
  unfold levelsView
  split
  · rename_i atEnd
    rw [atEnd, List.getElem?_append_right (le_refl _), Nat.sub_self]
    rfl
  · by_cases inside : q.nibbleCount < levels.length
    · rw [List.getElem?_append_left inside]
    · have beyond : levels.length + 1 ≤ q.nibbleCount := by omega
      rw [List.getElem?_eq_none (by simpa using beyond), List.getElem?_eq_none (by omega)]

theorem levelsView_append_pair (lower : List LevelChanges) (upper level : LevelChanges)
    (q : Nibbles) :
    levelsView (lower ++ [upper, level]) q =
      if q.nibbleCount = lower.length + 1 then level.lookup q.bytes
      else if q.nibbleCount = lower.length then upper.lookup q.bytes
      else levelsView lower q := by
  rw [show lower ++ [upper, level] = (lower ++ [upper]) ++ [level] by simp,
    levelsView_append_singleton, levelsView_append_singleton, List.length_append,
    List.length_singleton]

/-- The level loaded by `push_level_from_db`. -/
def loadedLevel (level : List (NodeKey × Node)) : LevelChanges :=
  level.foldl (fun changes (key, node) => changes.insert key.nibbles.bytes ⟨node, some key.version⟩) ∅

theorem getWorking_pushLevelFromDb (self : WorkingPatchSet) (level : List (NodeKey × Node))
    (q : Nibbles) :
    (self.pushLevelFromDb level).getWorking q =
      if q.nibbleCount = self.changesByNibbleCount.length then (loadedLevel level).lookup q.bytes
      else self.getWorking q :=
  levelsView_append_singleton _ _ q

/-- The patch set of a new version over a filled root holds only that root. -/
theorem getWorking_new_filled (rootVersion leafCount : Nat) (positive : 0 < leafCount)
    (node : Node) (q : Nibbles) :
    (WorkingPatchSet.new rootVersion (.filled leafCount positive node)).getWorking q =
      if q = Nibbles.EMPTY then
        some ⟨node, if 1 ≤ rootVersion then some (rootVersion - 1) else none⟩
      else none := by
  unfold WorkingPatchSet.new getWorking
  by_cases root : q = Nibbles.EMPTY
  · subst root
    simp [AList.lookup, AList.singleton, Nibbles.EMPTY]
  · rw [if_neg root]
    cases count : q.nibbleCount with
    | zero =>
      have bytes : Nibbles.EMPTY.bytes ≠ q.bytes :=
        fun same => root (nibbles_eq_iff.mpr ⟨count, same.symm⟩)
      simp [AList.lookup, AList.singleton, List.dlookup, bytes]
    | succ n => simp

theorem getWorking_new_empty (rootVersion : Nat) (q : Nibbles) :
    (WorkingPatchSet.new rootVersion .empty).getWorking q = none := by
  simp [WorkingPatchSet.new, getWorking]

@[simp] theorem pushLevelFromDb_rootVersion (self : WorkingPatchSet) (level : List (NodeKey × Node)) :
    (self.pushLevelFromDb level).rootVersion = self.rootVersion := rfl

/-- A loaded node comes from one of the loaded entries with its bytes. -/
theorem lookup_loadedLevel {level : List (NodeKey × Node)} {bytes : NibblesBytes}
    {node : WorkingNode} (found : (loadedLevel level).lookup bytes = some node) :
    ∃ key stored, (key, stored) ∈ level ∧ key.nibbles.bytes = bytes ∧
      node = ⟨stored, some key.version⟩ := by
  suffices general : ∀ (acc : LevelChanges) (level : List (NodeKey × Node)),
      (level.foldl (fun changes (key, node) =>
        changes.insert key.nibbles.bytes ⟨node, some key.version⟩) acc).lookup bytes = some node →
      acc.lookup bytes = some node ∨ ∃ key stored, (key, stored) ∈ level ∧
        key.nibbles.bytes = bytes ∧ node = ⟨stored, some key.version⟩ by
    rcases general ∅ level found with empty | loaded
    · simp at empty
    · exact loaded
  intro acc level
  induction level generalizing acc with
  | nil => exact Or.inl
  | cons entry rest ih =>
    obtain ⟨key, stored⟩ := entry
    intro later
    rcases ih _ later with inAcc | inRest
    · by_cases same : bytes = key.nibbles.bytes
      · rw [same, AList.lookup_insert] at inAcc
        cases inAcc
        exact Or.inr ⟨key, stored, List.mem_cons_self, same.symm, rfl⟩
      · rw [AList.lookup_insert_ne same] at inAcc
        exact Or.inl inAcc
    · obtain ⟨key', stored', member, sameBytes, eq⟩ := inRest
      exact Or.inr ⟨key', stored', List.mem_cons_of_mem _ member, sameBytes, eq⟩

/-- Every loaded entry can be looked up by its bytes. -/
theorem lookup_loadedLevel_isSome {level : List (NodeKey × Node)} {key : NodeKey} {stored : Node}
    (member : (key, stored) ∈ level) : ((loadedLevel level).lookup key.nibbles.bytes).isSome := by
  suffices general : ∀ (acc : LevelChanges) (level : List (NodeKey × Node)),
      ((acc.lookup key.nibbles.bytes).isSome ∨
        ∃ key' stored', (key', stored') ∈ level ∧ key'.nibbles.bytes = key.nibbles.bytes) →
      ((level.foldl (fun changes (key, node) =>
        changes.insert key.nibbles.bytes ⟨node, some key.version⟩) acc).lookup
          key.nibbles.bytes).isSome from
    general ∅ level (Or.inr ⟨key, stored, member, rfl⟩)
  intro acc level
  induction level generalizing acc with
  | nil =>
    rintro (present | ⟨_, _, absurd, _⟩)
    · exact present
    · cases absurd
  | cons entry rest ih =>
    obtain ⟨key', stored'⟩ := entry
    rintro (inAcc | ⟨key'', stored'', member', sameBytes⟩)
    · apply ih
      left
      by_cases same : key.nibbles.bytes = key'.nibbles.bytes
      · rw [same, AList.lookup_insert]
        rfl
      · rwa [AList.lookup_insert_ne same]
    · rcases List.mem_cons.mp member' with head | tail
      · cases head
        apply ih
        left
        rw [← sameBytes, AList.lookup_insert]
        rfl
      · exact ih _ (Or.inr ⟨key'', stored'', tail, sameBytes⟩)

end WorkingPatchSet

/-! ### Well-formed working nodes -/

variable (H : HashTree) (store : NodeStore) (contents : Contents)
  (W : Nibbles → Option WorkingNode)

/-- A reference to `child`: a working node of the referenced type, or, when the child is not
in the working set, a stored node that holds. -/
def ChildOk (child : Nibbles) (ref : ChildRef) : Prop :=
  match W child with
  | some working => working.inner.isLeaf = ref.isLeaf
  | none => StoredChild H store contents child ref

/-- Child slot `j` of the internal node `node` at `nibbles`: nothing lies below a missing
reference, and a present one is a correct reference to the child position. -/
def SlotOk (nibbles : Nibbles) (node : InternalNode) (j : UInt8) : Prop :=
  match node.childRef j with
  | none => VacantChild contents nibbles j
  | some ref => ∃ child, nibbles.push j = some child ∧ ChildOk H store contents W child ref

/-- A working internal node: a key prefix above the last level with at least one child and
correct slots. -/
structure InternalOk (nibbles : Nibbles) (node : InternalNode) : Prop where
  isPrefix : ∃ key, Under key nibbles
  depth_lt : nibbles.nibbleCount < 64
  nonempty : ∃ j : UInt8, j.toNat < 16 ∧ (node.childRef j).isSome
  slots : ∀ j : UInt8, j.toNat < 16 → SlotOk H store contents W nibbles node j

/-- A well-formed working node at `nibbles`. -/
def NodeOk (nibbles : Nibbles) : Node → Prop
  | .leaf leaf => LeafHolds contents nibbles leaf
  | .internal node => InternalOk H store contents W nibbles node

variable {H store contents W}

theorem slotOk_of_none {nibbles : Nibbles} {node : InternalNode} {j : UInt8}
    (missing : node.childRef j = none) :
    SlotOk H store contents W nibbles node j ↔ VacantChild contents nibbles j := by
  rw [SlotOk, missing]

theorem slotOk_of_some {nibbles : Nibbles} {node : InternalNode} {j : UInt8} {ref : ChildRef}
    (found : node.childRef j = some ref) :
    SlotOk H store contents W nibbles node j ↔
      ∃ child, nibbles.push j = some child ∧ ChildOk H store contents W child ref := by
  rw [SlotOk, found]

theorem childOk_of_working {child : Nibbles} {ref : ChildRef} {working : WorkingNode}
    (found : W child = some working) :
    ChildOk H store contents W child ref ↔ working.inner.isLeaf = ref.isLeaf := by
  rw [ChildOk, found]

theorem childOk_of_stored {child : Nibbles} {ref : ChildRef} (missing : W child = none) :
    ChildOk H store contents W child ref ↔ StoredChild H store contents child ref := by
  rw [ChildOk, missing]

theorem NodeOk.isPrefix {nibbles : Nibbles} {node : Node}
    (ok : NodeOk H store contents W nibbles node) : ∃ key, Under key nibbles := by
  cases node with
  | leaf leaf =>
    have ok : LeafHolds contents nibbles leaf := ok
    exact ⟨_, ok.under⟩
  | internal node => exact InternalOk.isPrefix ok

theorem NodeOk.depth_le {nibbles : Nibbles} {node : Node}
    (ok : NodeOk H store contents W nibbles node) : nibbles.nibbleCount ≤ 64 := by
  cases node with
  | leaf leaf =>
    have ok : LeafHolds contents nibbles leaf := ok
    exact ok.depth_le
  | internal node => exact le_of_lt (InternalOk.depth_lt ok)

/-- A well-formed working node whose children are all outside the working set holds. -/
theorem NodeOk.holds {nibbles : Nibbles} {node : Node}
    (ok : NodeOk H store contents W nibbles node)
    (noChild : ∀ j : UInt8, j.toNat < 16 → ∀ child, nibbles.push j = some child → W child = none) :
    Holds H store contents nibbles node := by
  cases node with
  | leaf leaf => exact .leaf ok
  | internal node =>
    have ok : InternalOk H store contents W nibbles node := ok
    -- every present slot refers to a stored child
    have storedSlot : ∀ j : UInt8, j.toNat < 16 → ∀ ref, node.childRef j = some ref →
        ∃ child, nibbles.push j = some child ∧ StoredChild H store contents child ref := by
      intro j hj ref found
      obtain ⟨child, pushed, childOk⟩ := (slotOk_of_some found).mp (ok.slots j hj)
      exact ⟨child, pushed, (childOk_of_stored (noChild j hj child pushed)).mp childOk⟩
    refine .internal ok.isPrefix ok.depth_lt ok.nonempty
      (fun j hj missing => (slotOk_of_none missing).mp (ok.slots j hj))
      (fun j hj ref found => ?_) (fun j hj ref found child childNode pushed inStore => ?_)
    · obtain ⟨child, pushed, childNode, inStore, isLeaf, hashEq, -⟩ := storedSlot j hj ref found
      exact ⟨child, childNode, pushed, inStore, isLeaf, hashEq⟩
    · obtain ⟨child', pushed', childNode', inStore', -, -, holds⟩ := storedSlot j hj ref found
      rw [pushed] at pushed'
      cases pushed'
      rw [inStore] at inStore'
      cases inStore'
      exact holds

/-- A holding node is a well-formed working node when none of its children is working. -/
theorem Holds.nodeOk {nibbles : Nibbles} {node : Node}
    (holds : Holds H store contents nibbles node)
    (noChild : ∀ j : UInt8, j.toNat < 16 → ∀ child, nibbles.push j = some child → W child = none) :
    NodeOk H store contents W nibbles node := by
  cases holds with
  | leaf leafHolds => exact leafHolds
  | @internal _ node isPrefix depth_lt nonempty vacant stored children =>
    refine ⟨isPrefix, depth_lt, nonempty, fun j hj => ?_⟩
    cases found : node.childRef j with
    | none => exact (slotOk_of_none found).mpr (vacant j hj found)
    | some ref =>
      obtain ⟨child, childNode, pushed, inStore, isLeaf, hashEq⟩ := stored j hj ref found
      refine (slotOk_of_some found).mpr ⟨child, pushed, ?_⟩
      exact (childOk_of_stored (noChild j hj child pushed)).mpr
        ⟨childNode, inStore, isLeaf, hashEq, children j hj ref found child childNode pushed inStore⟩

/-- A stored child stays correct in a larger store, and under contents that agree below it. -/
theorem StoredChild.transfer {store' : NodeStore} {contents' : Contents} {child : Nibbles}
    {ref : ChildRef} (stored : StoredChild H store contents child ref)
    (extends_ : ∀ key node, store key = some node → store' key = some node)
    (same : ∀ key, Under key child → contents' key = contents key) :
    StoredChild H store' contents' child ref := by
  obtain ⟨childNode, inStore, isLeaf, hashEq, holds⟩ := stored
  exact ⟨childNode, extends_ _ _ inStore, isLeaf, hashEq, (holds.mono extends_).congr same⟩

theorem slotOk_congr {nibbles : Nibbles} {node node' : InternalNode} {j : UInt8}
    (sameRef : node'.childRef j = node.childRef j) :
    SlotOk H store contents W nibbles node' j ↔ SlotOk H store contents W nibbles node j := by
  rw [SlotOk, SlotOk, sameRef]

/-- A slot stays correct in a larger store, under contents that agree below the slot, and with
a working child of the same type. -/
theorem SlotOk.transfer {store' : NodeStore} {contents' : Contents}
    {W' : Nibbles → Option WorkingNode} {nibbles : Nibbles} {node : InternalNode} {j : UInt8}
    {key₀ : Key} (under₀ : Under key₀ nibbles) (depth_lt : nibbles.nibbleCount < 64)
    (hj : j.toNat < 16) (ok : SlotOk H store contents W nibbles node j)
    (extends_ : ∀ key node, store key = some node → store' key = some node)
    (same : ∀ key, Under key nibbles → nibble key nibbles.nibbleCount = j →
      contents' key = contents key)
    (sameType : ∀ child, nibbles.push j = some child →
      (W' child).map (·.inner.isLeaf) = (W child).map (·.inner.isLeaf)) :
    SlotOk H store' contents' W' nibbles node j := by
  cases found : node.childRef j with
  | none =>
    refine (slotOk_of_none found).mpr fun key under digitJ => ?_
    rw [same key under digitJ]
    exact (slotOk_of_none found).mp ok key under digitJ
  | some ref =>
    obtain ⟨child, pushed, childOk⟩ := (slotOk_of_some found).mp ok
    refine (slotOk_of_some found).mpr ⟨child, pushed, ?_⟩
    have sameType := sameType child pushed
    -- the child keeps its kind of reference: working with the same type, or stored
    cases working : W child with
    | none =>
      rw [working, Option.map_none, Option.map_eq_none_iff] at sameType
      refine (childOk_of_stored sameType).mpr ?_
      refine ((childOk_of_stored working).mp childOk).transfer extends_ fun key under => ?_
      obtain ⟨underNode, digitJ⟩ := (under_push_iff under₀ depth_lt hj pushed key).mp under
      exact same key underNode digitJ
    | some w =>
      rw [working, Option.map_some] at sameType
      obtain ⟨w', working', isLeaf⟩ := Option.map_eq_some_iff.mp sameType
      rw [childOk_of_working working', isLeaf]
      exact (childOk_of_working working).mp childOk

/-- A well-formed working node stays well formed in a larger store, under contents that agree
below it, and with working children of the same types. -/
theorem NodeOk.transfer {store' : NodeStore} {contents' : Contents}
    {W' : Nibbles → Option WorkingNode} {nibbles : Nibbles} {node : Node}
    (ok : NodeOk H store contents W nibbles node)
    (extends_ : ∀ key node, store key = some node → store' key = some node)
    (same : ∀ key, Under key nibbles → contents' key = contents key)
    (children : ∀ j : UInt8, j.toNat < 16 → ∀ child, nibbles.push j = some child →
      (W' child).map (·.inner.isLeaf) = (W child).map (·.inner.isLeaf)) :
    NodeOk H store' contents' W' nibbles node := by
  cases node with
  | leaf leaf =>
    have ok : LeafHolds contents nibbles leaf := ok
    refine ⟨ok.under, ok.depth_le, ?_, fun key under present => ?_⟩
    · rw [same _ ok.under, ok.found]
    · rw [same key under] at present
      exact ok.only key under present
  | internal node =>
    have ok : InternalOk H store contents W nibbles node := ok
    obtain ⟨key₀, under₀⟩ := ok.isPrefix
    exact ⟨⟨key₀, under₀⟩, ok.depth_lt, ok.nonempty, fun j hj =>
      (ok.slots j hj).transfer under₀ ok.depth_lt hj extends_ (fun key under _ => same key under)
        (children j hj)⟩

/-! ### The invariant of the working set -/

variable (H store contents W) (version : Nat) (pending : Nibbles → Prop)

/-- The working node at `nibbles` hangs from a working internal node by a reference with the
new version, unless a key still to be inserted lies below it (its version is bumped then). -/
def ParentOk (nibbles : Nibbles) : Prop :=
  ∃ parentNibbles j working parent ref, nibbles.splitLast = some (parentNibbles, j) ∧
    W parentNibbles = some working ∧ working.inner = .internal parent ∧
    parent.childRef j = some ref ∧ (ref.version = version ∨ pending nibbles)

/-- The working set between the steps of an update creating `version`: a partial tree over the
store that stands for the contents. -/
structure WsInv : Prop where
  rootEmpty : W Nibbles.EMPTY = none → (∀ q, W q = none) ∧ ∀ key, contents key = none
  nodeOk : ∀ q working, W q = some working → NodeOk H store contents W q working.inner
  prevLt : ∀ q working prev, W q = some working → working.prevVersion = some prev →
    prev < version
  refsLe : ∀ q working node j ref, W q = some working → working.inner = .internal node →
    j.toNat < 16 → node.childRef j = some ref → ref.version ≤ version
  parent : ∀ q working, W q = some working → q.nibbleCount ≠ 0 →
    ParentOk W version pending q

/-- Below a working internal node on the path of `key`, the child towards `key` is working
whenever the node refers to it. -/
def PathLoaded (key : Key) : Prop :=
  ∀ n working node ref, W (new key n) = some working → working.inner = .internal node →
    node.childRef (nibble key n) = some ref → (W (new key (n + 1))).isSome

/-- `W'` keeps the positions of `W`, and a reference of `W'` to a child outside `W'` was
already a reference of `W`. -/
structure Grows (W' : Nibbles → Option WorkingNode) : Prop where
  keeps : ∀ q, (W q).isSome → (W' q).isSome
  refs : ∀ key n working' node' ref', W' (new key n) = some working' →
    working'.inner = .internal node' → node'.childRef (nibble key n) = some ref' →
    (W' (new key (n + 1))).isSome ∨ ∃ working node ref, W (new key n) = some working ∧
      working.inner = .internal node ∧ node.childRef (nibble key n) = some ref

variable {H store contents W version pending}

/-- Every working position is a key prefix. -/
theorem WsInv.isPrefix (inv : WsInv H store contents W version pending) {q : Nibbles}
    {working : WorkingNode} (found : W q = some working) : ∃ key, Under key q :=
  (inv.nodeOk q working found).isPrefix

theorem WsInv.depth_le (inv : WsInv H store contents W version pending) {q : Nibbles}
    {working : WorkingNode} (found : W q = some working) : q.nibbleCount ≤ 64 :=
  (inv.nodeOk q working found).depth_le

/-- The working set is closed under prefixes: above a working position of the path of `key`
every position is a working internal node with a reference towards `key`. -/
theorem WsInv.ancestor (inv : WsInv H store contents W version pending) {key : Key} {n : Nat}
    (found : (W (new key n)).isSome) {m : Nat} (hm : m < n) :
    ∃ working node ref, W (new key m) = some working ∧ working.inner = .internal node ∧
      node.childRef (nibble key m) = some ref := by
  induction n with
  | zero => exact absurd hm (Nat.not_lt_zero m)
  | succ n ih =>
    obtain ⟨working, hworking⟩ := Option.isSome_iff_exists.mp found
    have depth : n < 64 := by
      have := inv.depth_le hworking
      simp only [new_nibbleCount] at this
      omega
    obtain ⟨parentNibbles, j, parentWorking, parent, ref, split, hparent, internal, hasRef, -⟩ :=
      inv.parent _ _ hworking (by simp)
    rw [splitLast_new key depth] at split
    cases split
    rcases Nat.lt_succ_iff_lt_or_eq.mp hm with below | rfl
    · exact ih (by rw [hparent]; rfl) below
    · exact ⟨parentWorking, parent, ref, hparent, internal, hasRef⟩

/-- A working node is the parent of the positions it pushes. -/
theorem WsInv.splitLast_child (inv : WsInv H store contents W version pending) {q child : Nibbles}
    {working : WorkingNode} (found : W q = some working) {i : UInt8} (hi : i.toNat < 16)
    (pushed : q.push i = some child) : child.splitLast = some (q, i) := by
  obtain ⟨key, under⟩ := inv.isPrefix found
  have depth := inv.depth_le found
  exact splitLast_of_push under (by have := (push_nibbleCount pushed).2; omega) hi pushed

theorem PathLoaded.grow {W' : Nibbles → Option WorkingNode} {key : Key}
    (loaded : PathLoaded W key) (grows : Grows W W') : PathLoaded W' key := by
  intro n working' node' ref' found' internal' hasRef'
  rcases grows.refs key n working' node' ref' found' internal' hasRef' with loaded' | old
  · exact loaded'
  · obtain ⟨working, node, ref, found, internal, hasRef⟩ := old
    exact grows.keeps _ (loaded n working node ref found internal hasRef)

theorem Grows.trans {W' W'' : Nibbles → Option WorkingNode} (first : Grows W W')
    (second : Grows W' W'') : Grows W W'' := by
  refine ⟨fun q present => second.keeps q (first.keeps q present), ?_⟩
  intro key n working'' node'' ref'' found'' internal'' hasRef''
  rcases second.refs key n working'' node'' ref'' found'' internal'' hasRef'' with loaded | old
  · exact Or.inl loaded
  · obtain ⟨working', node', ref', found', internal', hasRef'⟩ := old
    rcases first.refs key n working' node' ref' found' internal' hasRef' with loaded | older
    · exact Or.inl (second.keeps _ loaded)
    · exact Or.inr older

end ZksyncEra.MerkleTree
