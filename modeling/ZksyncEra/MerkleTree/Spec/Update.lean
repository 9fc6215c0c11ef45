import ZksyncEra.MerkleTree.Spec.Traverse
import ZksyncEra.MerkleTree.Spec.Reference

/-!
What an insertion does to the working set, whatever the traversal found.

Inserting `key` changes the working set only on the path of `key` (and at the moved leaf of a
split): the internal nodes above the end of the traversal keep their place and get a reference
towards `key` of the new version (`PathBumped`), and the nodes from the end of the traversal
down are new or replaced. `WsInv.insertAlong` says that this keeps the working-set invariant for
the contents with the entry written, given the facts about the nodes from the end of the
traversal down; every other node, being off the path, is checked once here. `Grows.insertAlong`
does the same for the references out of the working set, which keeps the paths of the other keys
of the block loaded.
-/

namespace ZksyncEra.MerkleTree

open Nibbles

/-- Positions below the key of an entry still to be inserted. -/
def Pending (remaining : List (TreeEntry × Nibbles)) (nibbles : Nibbles) : Prop :=
  ∃ entry start, (entry, start) ∈ remaining ∧ Under entry.key nibbles

/-- The state of the loop of `extend` over `remaining` entries with their loaded ancestors: the
working set stands for the contents, every entry has its path loaded and starts on it. -/
structure InsertInv (H : HashTree) (store : NodeStore) (contents : Contents) (version : Nat)
    (W : WorkingPatchSet) (remaining : List (TreeEntry × Nibbles)) : Prop where
  rootVersion : W.rootVersion = version
  ws : WsInv H store contents W.getWorking version (Pending remaining)
  starts : ∀ entry start, (entry, start) ∈ remaining →
    Under entry.key start ∧ ((W.getWorking start).isSome ∨ start.nibbleCount = 0)
  loaded : ∀ entry start, (entry, start) ∈ remaining → PathLoaded W.getWorking entry.key

/-- After an insertion of `key`, the node at depth `m` of the path is the old internal node with
its reference towards `key` replaced by one of the new version, of the type of the new child. -/
def PathBumped (W W' : Nibbles → Option WorkingNode) (key : Key) (version m : Nat) : Prop :=
  ∃ working node node' ref, W (new key m) = some working ∧ working.inner = .internal node ∧
    W' (new key m) = some ⟨.internal node', working.prevVersion⟩ ∧
    (∀ i : UInt8, i.toNat < 16 →
      node'.childRef i = if i = nibble key m then some ref else node.childRef i) ∧
    ref.version = version ∧ (W' (new key (m + 1))).map (·.inner.isLeaf) = some ref.isLeaf

theorem ParentOk.weaken {W : Nibbles → Option WorkingNode} {version : Nat}
    {pending pending' : Nibbles → Prop} {q : Nibbles} (ok : ParentOk W version pending q)
    (implies : pending q → pending' q) : ParentOk W version pending' q := by
  obtain ⟨parentNibbles, j, working, parent, ref, split, found, internal, hasRef, fresh⟩ := ok
  exact ⟨parentNibbles, j, working, parent, ref, split, found, internal, hasRef,
    fresh.imp_right implies⟩

variable {H : HashTree} {store : NodeStore} {contents : Contents} {version : Nat}

/-- A working internal node on the path of `key` with its reference towards `key` replaced:
well formed when the contents change only at `key` and the other children keep their types. -/
theorem InternalOk.replaceRef {W W' : Nibbles → Option WorkingNode} {contents' : Contents}
    {q : Nibbles} {node node' : InternalNode} {key : Key} {ref : ChildRef}
    (ok : InternalOk H store contents W q node) (under : Under key q)
    (slots : ∀ i : UInt8, i.toNat < 16 →
      node'.childRef i = if i = nibble key q.nibbleCount then some ref else node.childRef i)
    (same : ∀ key', key' ≠ key → contents' key' = contents key')
    (others : ∀ i : UInt8, i.toNat < 16 → i ≠ nibble key q.nibbleCount → ∀ child,
      q.push i = some child → (W' child).map (·.inner.isLeaf) = (W child).map (·.inner.isLeaf))
    (towards : (W' (new key (q.nibbleCount + 1))).map (·.inner.isLeaf) = some ref.isLeaf) :
    InternalOk H store contents' W' q node' := by
  have keyNibble : (nibble key q.nibbleCount).toNat < 16 := nibble_lt key ok.depth_lt
  refine ⟨⟨key, under⟩, ok.depth_lt, ⟨_, keyNibble, by rw [slots _ keyNibble, if_pos rfl]; rfl⟩,
    fun i hi => ?_⟩
  by_cases isKey : i = nibble key q.nibbleCount
  · -- the slot towards `key`: its child is working with the type of the new reference
    subst isKey
    have pushed : q.push (nibble key q.nibbleCount) = some (new key (q.nibbleCount + 1)) := by
      have := push_new key ok.depth_lt
      rwa [show new key q.nibbleCount = q from under] at this
    refine (slotOk_of_some (by rw [slots _ hi, if_pos rfl])).mpr ⟨_, pushed, ?_⟩
    obtain ⟨working, found, isLeaf⟩ := Option.map_eq_some_iff.mp towards
    exact (childOk_of_working found).mpr isLeaf
  · have sameRef : node'.childRef i = node.childRef i := by rw [slots i hi, if_neg isKey]
    rw [slotOk_congr sameRef]
    exact (ok.slots i hi).transfer under ok.depth_lt hi (fun _ _ stored => stored)
      (fun key' _ digit => same key' fun same => isKey (by rw [← digit, same]))
      (others i hi isKey)

section InsertAlong

variable {W W' : Nibbles → Option WorkingNode} {entry : TreeEntry} {start : Nibbles}
  {remaining : List (TreeEntry × Nibbles)} {n : Nat} {extra : Nibbles → Prop}

/-- The children of a node off the path (and not the moved leaf) are off the path too. -/
private theorem untouched_child
    (inv : WsInv H store contents W version (Pending ((entry, start) :: remaining)))
    (extraParent : ∀ q, extra q → ∃ parent j, q.splitLast = some (parent, j) ∧
      Under entry.key parent ∧ n ≤ parent.nibbleCount)
    {q child : Nibbles} {working : WorkingNode} (found : W q = some working)
    (offPath : ¬ Under entry.key q) {i : UInt8} (hi : i.toNat < 16)
    (pushed : q.push i = some child) : ¬ Under entry.key child ∧ ¬ extra child := by
  obtain ⟨key₀, under₀⟩ := inv.isPrefix found
  have depth : q.nibbleCount < 64 := by
    have := inv.depth_le found
    have := (push_nibbleCount pushed).2
    omega
  refine ⟨fun under => offPath ((under_push_iff under₀ depth hi pushed _).mp under).1,
    fun isExtra => ?_⟩
  obtain ⟨parent, j, split, underParent, -⟩ := extraParent child isExtra
  rw [splitLast_of_push under₀ depth hi pushed, Option.some.injEq, Prod.mk.injEq] at split
  rw [split.1] at offPath
  exact offPath underParent

/-- One insertion keeps the working-set invariant, for the contents with the entry written:
the nodes above the end of the traversal are bumped (`path`), those from there down satisfy
`below`, and nothing else changes. -/
theorem WsInv.insertAlong
    (inv : WsInv H store contents W version (Pending ((entry, start) :: remaining)))
    (small : n ≤ 64) (deepest : ∀ m, (W (new entry.key m)).isSome → m ≤ n)
    (notInternal : ∀ working node, W (new entry.key n) = some working →
      working.inner ≠ .internal node)
    (path : ∀ m < n, PathBumped W W' entry.key version m)
    (extraNew : ∀ q, extra q → W q = none)
    (extraParent : ∀ q, extra q → ∃ parent j, q.splitLast = some (parent, j) ∧
      Under entry.key parent ∧ n ≤ parent.nibbleCount)
    (frame : ∀ q, ¬ Under entry.key q → ¬ extra q → W' q = W q)
    (below : ∀ q working, (Under entry.key q ∧ n ≤ q.nibbleCount) ∨ extra q →
      W' q = some working →
      NodeOk H store (contents.write entry) W' q working.inner ∧
      (∀ prev, working.prevVersion = some prev → prev < version) ∧
      (∀ node j ref, working.inner = .internal node → j.toNat < 16 →
        node.childRef j = some ref → ref.version ≤ version) ∧
      (q.nibbleCount ≠ 0 → ParentOk W' version (fun _ => False) q))
    (rootPresent : W' Nibbles.EMPTY ≠ none) :
    WsInv H store (contents.write entry) W' version (Pending remaining) := by
  classical
  have sameContents : ∀ q, ¬ Under entry.key q → ∀ key, Under key q →
      (contents.write entry) key = contents key := by
    intro q offPath key under
    refine Contents.write_of_ne _ _ fun same => offPath ?_
    rwa [same] at under
  -- the old nodes off the path keep their children
  have sameChildren : ∀ q working, W q = some working → ¬ Under entry.key q →
      ∀ i : UInt8, i.toNat < 16 → ∀ child, q.push i = some child → W' child = W child := by
    intro q working found offPath i hi child pushed
    obtain ⟨offChild, notExtra⟩ :=
      untouched_child inv extraParent found offPath hi pushed
    exact frame child offChild notExtra
  refine ⟨fun empty => absurd empty rootPresent, fun q working found => ?_,
    fun q working prev found hprev => ?_, fun q working node j ref found internal hj hasRef => ?_,
    fun q working found nonRoot => ?_⟩
  · -- well-formed nodes
    by_cases under : Under entry.key q
    · by_cases above : q.nibbleCount < n
      · obtain ⟨m, rfl⟩ : ∃ m, q = new entry.key m := ⟨_, under.symm⟩
        rw [new_nibbleCount] at above
        obtain ⟨working₀, node, node', ref, found₀, internal₀, found', slots, -, towards⟩ :=
          path m above
        rw [found'] at found
        cases found
        have ok := inv.nodeOk _ _ found₀
        rw [internal₀] at ok
        refine ok.replaceRef under slots (fun key' other => Contents.write_of_ne _ _ other)
          (fun i hi other child pushed => ?_) towards
        have offChild : ¬ Under entry.key child := fun underChild =>
          other ((under_push_iff under ok.depth_lt hi pushed _).mp underChild).2.symm
        have notExtra : ¬ extra child := fun isExtra => by
          obtain ⟨parent, j, split, -, deep⟩ := extraParent child isExtra
          rw [splitLast_of_push under ok.depth_lt hi pushed, Option.some.injEq,
            Prod.mk.injEq] at split
          rw [← split.1, new_nibbleCount] at deep
          omega
        rw [frame child offChild notExtra]
      · exact (below q working (Or.inl ⟨under, by omega⟩) found).1
    · by_cases isExtra : extra q
      · exact (below q working (Or.inr isExtra) found).1
      · rw [frame q under isExtra] at found
        exact (inv.nodeOk q working found).transfer (fun _ _ stored => stored)
          (sameContents q under) fun i hi child pushed => by
            rw [sameChildren q working found under i hi child pushed]
  · -- previous versions
    by_cases under : Under entry.key q
    · by_cases above : q.nibbleCount < n
      · obtain ⟨m, rfl⟩ : ∃ m, q = new entry.key m := ⟨_, under.symm⟩
        obtain ⟨working₀, -, node', -, found₀, -, found', -⟩ := path m above
        rw [found'] at found
        cases found
        exact inv.prevLt _ _ prev found₀ hprev
      · exact (below q working (Or.inl ⟨under, by omega⟩) found).2.1 prev hprev
    · by_cases isExtra : extra q
      · exact (below q working (Or.inr isExtra) found).2.1 prev hprev
      · rw [frame q under isExtra] at found
        exact inv.prevLt q working prev found hprev
  · -- reference versions
    by_cases under : Under entry.key q
    · by_cases above : q.nibbleCount < n
      · obtain ⟨m, rfl⟩ : ∃ m, q = new entry.key m := ⟨_, under.symm⟩
        obtain ⟨working₀, node₀, node', ref', found₀, internal₀, found', slots, fresh, -⟩ :=
          path m above
        rw [found'] at found
        cases found
        cases internal
        rw [slots j hj] at hasRef
        split at hasRef
        · cases hasRef
          exact le_of_eq fresh
        · exact inv.refsLe _ _ _ j ref found₀ internal₀ hj hasRef
      · exact (below q working (Or.inl ⟨under, by omega⟩) found).2.2.1 node j ref internal hj
          hasRef
    · by_cases isExtra : extra q
      · exact (below q working (Or.inr isExtra) found).2.2.1 node j ref internal hj hasRef
      · rw [frame q under isExtra] at found
        exact inv.refsLe q working node j ref found internal hj hasRef
  · -- parents
    by_cases under : Under entry.key q
    · by_cases above : q.nibbleCount < n
      · -- the parent is on the path too, with a bumped reference towards `q`
        obtain ⟨m, count⟩ := Nat.exists_eq_succ_of_ne_zero nonRoot
        obtain ⟨_, _, node', ref, _, _, found', slots, fresh, _⟩ := path m (by omega)
        have hm : m < 64 := by omega
        refine ⟨new entry.key m, nibble entry.key m, _, node', ref,
          splitLast_of_under under count hm, found', rfl, ?_, Or.inl fresh⟩
        rw [slots _ (nibble_lt _ hm), if_pos rfl]
      · exact ((below q working (Or.inl ⟨under, by omega⟩) found).2.2.2 nonRoot).weaken
          False.elim
    · by_cases isExtra : extra q
      · exact ((below q working (Or.inr isExtra) found).2.2.2 nonRoot).weaken False.elim
      rw [frame q under isExtra] at found
      obtain ⟨parentNibbles, j, parent, parentNode, ref, split, parentFound, internal, hasRef,
        fresh⟩ := inv.parent q working found nonRoot
      -- the pending key below `q` is not the inserted one
      have stillPending : Pending ((entry, start) :: remaining) q → Pending remaining q := by
        rintro ⟨entry', start', member, under'⟩
        rcases List.mem_cons.mp member with head | tail
        · cases head
          exact absurd under' under
        · exact ⟨entry', start', tail, under'⟩
      obtain ⟨key₀, under₀⟩ := inv.isPrefix found
      have depth := inv.depth_le found
      have hj := nibble_lt_of_splitLast under₀ depth split
      have pushed := push_of_splitLast under₀ depth split
      have parentDepth : parentNibbles.nibbleCount < 64 := by
        have := (push_nibbleCount pushed).2
        have := (push_nibbleCount pushed).1
        omega
      by_cases parentOnPath : Under entry.key parentNibbles
      · -- the parent is above the end of the traversal: only its reference towards `key` moved
        obtain ⟨m, rfl⟩ : ∃ m, parentNibbles = new entry.key m := ⟨_, parentOnPath.symm⟩
        rw [new_nibbleCount] at parentDepth
        have above : m < n := by
          rcases Nat.lt_or_eq_of_le (deepest m (by rw [parentFound]; rfl)) with lt | eq
          · exact lt
          · exfalso
            rw [eq] at parentFound
            exact notInternal parent parentNode parentFound internal
        obtain ⟨working₀, node₀, node', ref', found₀, internal₀, found', slots, -, -⟩ := path m above
        rw [parentFound] at found₀
        cases found₀
        rw [internal] at internal₀
        cases internal₀
        have otherNibble : j ≠ nibble entry.key m := by
          intro same
          apply under
          exact ((under_push_iff parentOnPath parentDepth hj pushed _).mpr
            ⟨parentOnPath, by rw [new_nibbleCount]; exact same.symm⟩)
        refine ⟨new entry.key m, j, _, node', ref, split, found', rfl, ?_,
          fresh.imp_right stillPending⟩
        rw [slots j hj, if_neg otherNibble]
        exact hasRef
      · have notExtra : ¬ extra parentNibbles := fun isExtra => by
          rw [extraNew _ isExtra] at parentFound
          cases parentFound
        exact ⟨parentNibbles, j, parent, parentNode, ref, split,
          by rw [frame _ parentOnPath notExtra]; exact parentFound, internal, hasRef,
          fresh.imp_right stillPending⟩

/-- One insertion only adds references into the working set: the paths of the other keys stay
loaded. -/
theorem Grows.insertAlong {contents' : Contents} {pending' : Nibbles → Prop}
    (inv' : WsInv H store contents' W' version pending')
    (path : ∀ m < n, PathBumped W W' entry.key version m)
    (frame : ∀ q, ¬ Under entry.key q → ¬ extra q → W' q = W q)
    (keeps : ∀ q, (W q).isSome → (W' q).isSome)
    (belowRefs : ∀ q working node j ref, (Under entry.key q ∧ n ≤ q.nibbleCount) ∨ extra q →
      W' q = some working → working.inner = .internal node → j.toNat < 16 →
      node.childRef j = some ref → ∃ child, q.push j = some child ∧ (W' child).isSome) :
    Grows W W' := by
  classical
  refine ⟨keeps, fun key m working' node' ref' found' internal' hasRef' => ?_⟩
  have hm : m < 64 := by
    have ok := inv'.nodeOk _ _ found'
    rw [internal'] at ok
    exact InternalOk.depth_lt ok
  -- a reference of a node from the end of the traversal down points into the working set
  have intoWorking : ∀ child, (new key m).push (nibble key m) = some child →
      (W' child).isSome → (W' (new key (m + 1))).isSome := by
    intro child pushed present
    rw [push_new key hm] at pushed
    cases pushed
    exact present
  by_cases under : Under entry.key (new key m)
  · by_cases above : m < n
    · -- a bumped node: the reference towards `entry.key` is new, the others are old
      have samePosition : new entry.key m = new key m := under
      obtain ⟨working₀, node₀, node'', ref, found₀, internal₀, foundBumped, slots, -, towards⟩ :=
        path m above
      rw [samePosition, found'] at foundBumped
      cases foundBumped
      cases internal'
      rw [slots _ (nibble_lt key hm)] at hasRef'
      split at hasRef'
      · rename_i sameNibble
        left
        have sameChild : new key (m + 1) = new entry.key (m + 1) :=
          (new_succ_eq_new_succ_iff hm).mpr ⟨samePosition.symm,
            (nibble_eq_nibble_iff key entry.key hm).mp sameNibble⟩
        rw [sameChild]
        obtain ⟨working, found, -⟩ := Option.map_eq_some_iff.mp towards
        rw [found]
        rfl
      · exact Or.inr ⟨working₀, node₀, ref', samePosition ▸ found₀, internal₀, hasRef'⟩
    · obtain ⟨child, pushed, present⟩ := belowRefs _ _ _ _ _
        (Or.inl ⟨under, by rw [new_nibbleCount]; omega⟩) found' internal' (nibble_lt key hm) hasRef'
      exact Or.inl (intoWorking child pushed present)
  · by_cases isExtra : extra (new key m)
    · obtain ⟨child, pushed, present⟩ := belowRefs _ _ _ _ _ (Or.inr isExtra) found' internal'
        (nibble_lt key hm) hasRef'
      exact Or.inl (intoWorking child pushed present)
    · rw [frame _ under isExtra] at found'
      exact Or.inr ⟨working', node', ref', found', internal', hasRef'⟩

end InsertAlong

end ZksyncEra.MerkleTree
