import ZksyncEra.MerkleTree.Spec.Update

/-!
`TreeUpdater::insert` keeps the working set standing for the contents, with the entry written.

Each end of the traversal is one case: a matching leaf is replaced, a missing child becomes a
new leaf (at the root, or below the internal node that lacks the reference), and a mismatched
leaf is split into a chain of internal nodes ending in a fork with both leaves. In every case the
references on the path above are then bumped (`BumpedFrom`), and `WsInv.insertAlong` reduces the
invariant to the nodes the case creates. The log is the one of the reference map (`writeLog`).
-/

namespace ZksyncEra.MerkleTree

open Nibbles WorkingPatchSet

theorem InternalNode.childRef_insertChildRef (node : InternalNode) {i j : UInt8}
    (hi : i.toNat < 16) (hj : j.toNat < 16) (ref : ChildRef) :
    (node.insertChildRef j ref).childRef i = if i = j then some ref else node.childRef i := by
  show (node.children.insert j ref).get i = _
  rw [SmallMap.get_insert _ hj hi]
  by_cases same : i = j
  · rw [if_pos same.symm, if_pos same]
  · rw [if_neg (Ne.symm same), if_neg same]
    rfl

theorem LeafNode.updateFrom_of_key {leaf : LeafNode} {entry : TreeEntry}
    (isKey : leaf.fullKey = entry.key) : leaf.updateFrom entry = LeafNode.new entry := by
  obtain ⟨fullKey, valueHash, leafIndex⟩ := leaf
  simp only [LeafNode.updateFrom, LeafNode.new, LeafNode.mk.injEq, and_true]
  exact isKey

theorem new_ne_new {key key' : Key} {m n : Nat} (different : m ≠ n) : new key m ≠ new key' n :=
  fun same => different (congrArg Nibbles.nibbleCount same)

/-- Below a prefix of a key, a key lies below every shorter prefix too. -/
theorem under_new_of_le {key key' : Key} {m n : Nat} (under : Under key (new key' m)) (le : n ≤ m) :
    Under key (new key' n) := by
  unfold Under at *
  rw [new_nibbleCount] at *
  exact new_eq_new_iff.mpr fun i hi small => new_eq_new_iff.mp under i (by omega) small

/-- Two keys with a common `n`-nibble prefix that agree from nibble `n` to `d` have a common
`d`-nibble prefix. -/
theorem new_eq_new_of_agree {key key' : Key} {n d : Nat} (same : new key' n = new key n)
    (agree : ∀ k, n ≤ k → k < d → nibble key' k = nibble key k) : new key' d = new key d := by
  refine new_eq_new_iff.mpr fun i hi small => ?_
  by_cases early : i < n
  · exact new_eq_new_iff.mp same i early small
  · exact (nibble_eq_nibble_iff _ _ small).mp (agree i (by omega) hi)

/-- A key below the `d + 1`-nibble prefix of another has its nibble `d`. -/
theorem nibble_of_under_succ {key key' : Key} {d : Nat} (hd : d < 64)
    (under : Under key (new key' (d + 1))) : nibble key d = nibble key' d :=
  ((under_push_iff (under_new key' d) hd (nibble_lt key' hd) (push_new key' hd) key).mp under).2

/-! ### Leaves after a write -/

section Leaves

variable {contents : Contents} {entry : TreeEntry} {q : Nibbles}

/-- The new leaf of an entry holds below a position where no other key is present. -/
theorem LeafHolds.ofWrite (under : Under entry.key q) (depth : q.nibbleCount ≤ 64)
    (vacant : ∀ key, Under key q → key ≠ entry.key → contents key = none) :
    LeafHolds (contents.write entry) q (LeafNode.new entry) where
  under := under
  depth_le := depth
  found := Contents.write_self contents entry
  only key under' present := by
    by_contra other
    rw [Contents.write_of_ne _ _ other, vacant key under' other] at present
    cases present

/-- A leaf of another key, moved down to a position below its old one that the entry's key
does not share, still holds after the write. -/
theorem LeafHolds.moved {q' : Nibbles} {leaf : LeafNode} (holds : LeafHolds contents q leaf)
    (under' : Under leaf.fullKey q') (depth' : q'.nibbleCount ≤ 64)
    (below : ∀ key, Under key q' → Under key q) (apart : ∀ key, Under key q' → key ≠ entry.key) :
    LeafHolds (contents.write entry) q' leaf where
  under := under'
  depth_le := depth'
  found := by rw [Contents.write_of_ne _ _ (apart _ under'), holds.found]
  only key under present := by
    rw [Contents.write_of_ne _ _ (apart key under)] at present
    exact holds.only key (below key under) present

/-- Below a leaf, only its own key is present. -/
theorem LeafHolds.vacant {leaf : LeafNode} (holds : LeafHolds contents q leaf) :
    ∀ key, Under key q → key ≠ leaf.fullKey → contents key = none := by
  intro key under other
  cases present : contents key with
  | none => rfl
  | some _ => exact absurd (holds.only key under (by rw [present]; rfl)) other

end Leaves

/-! ### Bumped paths -/

section Bumped

variable {W W₁ W' : Nibbles → Option WorkingNode} {key : Key} {n version : Nat}

theorem bumpRef_isLeaf (version : Nat) (j : UInt8) (working : WorkingNode) :
    (bumpRef version j working).inner.isLeaf = working.inner.isLeaf := by
  unfold bumpRef
  split
  · next internal => rw [internal]; rfl
  · rfl

/-- Bumping keeps the type of every node. -/
theorem BumpedFrom.isLeaf (bumped : BumpedFrom W₁ W' key n version) (q : Nibbles) :
    (W' q).map (·.inner.isLeaf) = (W₁ q).map (·.inner.isLeaf) := by
  rw [bumped q]
  split
  · rw [Option.map_map]
    congr 1
    funext working
    exact bumpRef_isLeaf _ _ working
  · rfl

theorem BumpedFrom.isSome (bumped : BumpedFrom W₁ W' key n version) (q : Nibbles) :
    (W' q).isSome = (W₁ q).isSome := by
  rw [bumped q]
  split
  · rw [Option.isSome_map]
  · rfl

/-- Bumping changes nothing off the path of the key or from depth `n` down. -/
theorem BumpedFrom.of_not_above (bumped : BumpedFrom W₁ W' key n version) {q : Nibbles}
    (notAbove : ¬ (q.nibbleCount < n ∧ Under key q)) : W' q = W₁ q := by
  rw [bumped q, if_neg fun ⟨lt, onPath⟩ => notAbove ⟨lt, onPath.symm⟩]

/-- A node of the path above depth `n` gets its reference towards the key bumped; before the
bump it may already differ from the old node in that one reference. -/
theorem BumpedFrom.pathBumped (bumped : BumpedFrom W₁ W' key n version) {m : Nat} (hm : m < n)
    (depth : m < 64) {working : WorkingNode} {node node₁ : InternalNode} {ref₁ : ChildRef}
    (found : W (new key m) = some working) (internal : working.inner = .internal node)
    (found₁ : W₁ (new key m) = some ⟨.internal node₁, working.prevVersion⟩)
    (others : ∀ i : UInt8, i.toNat < 16 → i ≠ nibble key m → node₁.childRef i = node.childRef i)
    (hasRef₁ : node₁.childRef (nibble key m) = some ref₁) (le : ref₁.version ≤ version)
    (towards : (W₁ (new key (m + 1))).map (·.inner.isLeaf) = some ref₁.isLeaf) :
    PathBumped W W' key version m := by
  let ref := { ref₁ with version := max ref₁.version version }
  have bumpedNode : W' (new key m) =
      some ⟨.internal (node₁.insertChildRef (nibble key m) ref), working.prevVersion⟩ := by
    rw [bumped, if_pos ⟨hm, rfl⟩, found₁, Option.map_some, new_nibbleCount,
      bumpRef_of_internal version rfl hasRef₁]
  refine ⟨working, node, _, ref, found, internal, bumpedNode, fun i hi => ?_,
    Nat.max_eq_right le, by rw [bumped.isLeaf]; exact towards⟩
  rw [InternalNode.childRef_insertChildRef _ hi (nibble_lt key depth)]
  split
  · rfl
  · next other => exact others i hi other

/-- A new node just below a bumped one hangs from it by a reference of the new version. -/
theorem PathBumped.parentOk {pending : Nibbles → Prop} {m : Nat}
    (bumped : PathBumped W W' key version m) (depth : m < 64) :
    ParentOk W' version pending (new key (m + 1)) := by
  obtain ⟨working, node, node', ref, -, -, found', slots, fresh, -⟩ := bumped
  exact ⟨new key m, nibble key m, _, node', ref, splitLast_new key depth, found', rfl,
    by rw [slots _ (nibble_lt key depth), if_pos rfl], Or.inl fresh⟩

/-- After an insertion there is a root: the top of the bumped path, or the node at the root. -/
theorem root_ne_none_of_path (path : ∀ m < n, PathBumped W W' key version m)
    (reached : (W' (new key n)).isSome) : W' Nibbles.EMPTY ≠ none := by
  cases n with
  | zero =>
    rw [← new_zero key]
    exact Option.isSome_iff_ne_none.mp reached
  | succ n =>
    obtain ⟨_, _, _, _, _, _, found', _⟩ := path 0 (Nat.succ_pos n)
    rw [← new_zero key, found']
    exact Option.some_ne_none _

end Bumped

/-! ### Facts of the working set used by every case -/

section Facts

variable {H : HashTree} {store : NodeStore} {contents : Contents} {version : Nat}
  {pending : Nibbles → Prop} {W : Nibbles → Option WorkingNode}

/-- The reference of a working internal node towards a working child has the child's type. -/
theorem WsInv.towards (inv : WsInv H store contents W version pending) {key : Key} {m : Nat}
    {working : WorkingNode} {node : InternalNode} {ref : ChildRef}
    (found : W (new key m) = some working) (internal : working.inner = .internal node)
    (hasRef : node.childRef (nibble key m) = some ref) (present : (W (new key (m + 1))).isSome) :
    (W (new key (m + 1))).map (·.inner.isLeaf) = some ref.isLeaf := by
  have ok := inv.nodeOk _ _ found
  rw [internal] at ok
  have depth : m < 64 := InternalOk.depth_lt ok
  obtain ⟨child, pushed, childOk⟩ := (slotOk_of_some hasRef).mp (ok.slots _ (nibble_lt key depth))
  rw [push_new key depth] at pushed
  cases pushed
  obtain ⟨child, found'⟩ := Option.isSome_iff_exists.mp present
  rw [found', Option.map_some, (childOk_of_working found').mp childOk]

/-- A node of the path strictly above a working position of the path, untouched by the case
before the bump, is bumped. -/
theorem WsInv.pathBumped (inv : WsInv H store contents W version pending)
    {W₁ W' : Nibbles → Option WorkingNode} {key : Key} {n k m : Nat}
    (bumped : BumpedFrom W₁ W' key n version) (present : (W (new key k)).isSome) (hm : m < k)
    (hmn : m < n) (same : W₁ (new key m) = W (new key m))
    (kinds : (W₁ (new key (m + 1))).map (·.inner.isLeaf) =
      (W (new key (m + 1))).map (·.inner.isLeaf)) :
    PathBumped W W' key version m := by
  obtain ⟨working, node, ref, found, internal, hasRef⟩ := inv.ancestor present hm
  have ok := inv.nodeOk _ _ found
  rw [internal] at ok
  have depth : m < 64 := InternalOk.depth_lt ok
  -- the child towards the key is working: an ancestor of `new key k`, or that position
  have childPresent : (W (new key (m + 1))).isSome := by
    rcases Nat.lt_or_eq_of_le (Nat.succ_le_of_lt hm) with above | rfl
    · obtain ⟨_, _, _, child, -⟩ := inv.ancestor present above
      rw [child]
      rfl
    · exact present
  refine bumped.pathBumped hmn depth found internal ?_ (fun _ _ _ => rfl) hasRef
    (inv.refsLe _ _ _ _ _ found internal (nibble_lt key depth) hasRef)
    (kinds.trans (inv.towards found internal hasRef childPresent))
  rw [same, found]
  obtain ⟨inner, prev⟩ := working
  cases internal
  rfl

end Facts


/-! ### A new leaf on the path -/

section NewLeaf

variable {H : HashTree} {store : NodeStore} {contents : Contents} {version : Nat}
  {W W₁ W' : Nibbles → Option WorkingNode} {entry : TreeEntry} {start : Nibbles}
  {remaining : List (TreeEntry × Nibbles)} {n : Nat}

/-- An insertion that puts the entry's leaf at depth `n` of its path, where no other key lies,
and otherwise changes the working set only in the bumped path above (`W₁` before the bump, `W'`
after it). -/
theorem WsInv.insertLeaf
    (inv : WsInv H store contents W version (Pending ((entry, start) :: remaining)))
    {prev : Option Nat} (small : n ≤ 64) (deepest : ∀ m, (W (new entry.key m)).isSome → m ≤ n)
    (notInternal : ∀ working node, W (new entry.key n) = some working →
      working.inner ≠ .internal node)
    (vacant : ∀ key, Under key (new entry.key n) → key ≠ entry.key → contents key = none)
    (bumped : BumpedFrom W₁ W' entry.key n version)
    (leafAt : W₁ (new entry.key n) = some ⟨.leaf (LeafNode.new entry), prev⟩)
    (prevLt : ∀ p, prev = some p → p < version)
    (others : ∀ q, q ≠ new entry.key n → (¬ Under entry.key q ∨ n ≤ q.nibbleCount) → W₁ q = W q)
    (path : ∀ m < n, PathBumped W W' entry.key version m) :
    WsInv H store (contents.write entry) W' version (Pending remaining) ∧ Grows W W' := by
  have leafAt' : W' (new entry.key n) = some ⟨.leaf (LeafNode.new entry), prev⟩ := by
    rw [bumped.of_not_above fun ⟨above, _⟩ => Nat.lt_irrefl n above, leafAt]
  have keeps : ∀ q, (W q).isSome → (W' q).isSome := by
    intro q old
    by_cases above : q.nibbleCount < n ∧ Under entry.key q
    · obtain ⟨m, rfl⟩ : ∃ m, q = new entry.key m := ⟨_, above.2.symm⟩
      obtain ⟨_, _, _, _, _, _, found', _⟩ := path m above.1
      rw [found']
      rfl
    · rw [bumped.of_not_above above]
      by_cases isN : q = new entry.key n
      · rw [isN, leafAt]
        rfl
      · have outside : ¬ Under entry.key q ∨ n ≤ q.nibbleCount := by
          by_cases onPath : Under entry.key q
          · exact Or.inr (Nat.le_of_not_lt fun lt => above ⟨lt, onPath⟩)
          · exact Or.inl onPath
        rw [others q isN outside]
        exact old
  have frame : ∀ q, ¬ Under entry.key q → ¬ False → W' q = W q := by
    intro q offPath _
    rw [bumped.of_not_above fun ⟨_, onPath⟩ => offPath onPath,
      others q (fun isN => offPath (by rw [isN]; rfl)) (Or.inl offPath)]
  -- from depth `n` down there is only the new leaf
  have bottom : ∀ q working', (Under entry.key q ∧ n ≤ q.nibbleCount) ∨ False →
      W' q = some working' →
      q = new entry.key n ∧ working' = ⟨.leaf (LeafNode.new entry), prev⟩ := by
    intro q working' onPath found'
    obtain ⟨under, deep⟩ := onPath.resolve_right id
    by_cases isN : q = new entry.key n
    · rw [isN, leafAt'] at found'
      exact ⟨isN, (Option.some.inj found').symm⟩
    · exfalso
      rw [bumped.of_not_above (by omega), others q isN (Or.inr deep)] at found'
      obtain ⟨k, rfl⟩ : ∃ k, q = new entry.key k := ⟨_, under.symm⟩
      have := deepest k (by rw [found']; rfl)
      exact isN (by rw [show k = n by rw [new_nibbleCount] at deep; omega])
  have ws' : WsInv H store (contents.write entry) W' version (Pending remaining) := by
    refine inv.insertAlong small deepest notInternal path (fun _ never => never.elim)
      (fun _ never => never.elim) frame (fun q working' onPath found' => ?_)
      (root_ne_none_of_path path (by rw [leafAt']; rfl))
    obtain ⟨rfl, rfl⟩ := bottom q working' onPath found'
    refine ⟨LeafHolds.ofWrite rfl small vacant, prevLt, fun _ _ _ internal => Node.noConfusion internal,
      fun nonRoot => ?_⟩
    obtain ⟨m, rfl⟩ := Nat.exists_eq_succ_of_ne_zero nonRoot
    exact (path m (by omega)).parentOk (by omega)
  refine ⟨ws', Grows.insertAlong ws' path frame keeps ?_⟩
  intro q working' node j ref onPath found' internal _ _
  obtain ⟨-, rfl⟩ := bottom q working' onPath found'
  cases internal

end NewLeaf

/-! ### Splitting a leaf -/

section Split

theorem InternalNode.childRef_empty (i : UInt8) : InternalNode.empty.childRef i = none := by
  simp [InternalNode.empty, InternalNode.childRef, SmallMap.get_eq, SmallMap.empty]

theorem splitNode_childRef (version : Nat) (key movedKey : Key) {k : Nat} (hk : k < 64)
    {i : UInt8} (hi : i.toNat < 16) :
    (splitNode version key movedKey k).childRef i =
      if i = nibble key k then
        some (if nibble movedKey k = nibble key k then ChildRef.internal version
          else ChildRef.leaf version)
      else if i = nibble movedKey k then some (ChildRef.leaf version) else none := by
  have hkey := nibble_lt key hk
  have hmoved := nibble_lt movedKey hk
  unfold splitNode
  by_cases agree : nibble movedKey k = nibble key k
  · rw [if_pos agree, InternalNode.childRef_insertChildRef _ hi hkey, InternalNode.childRef_empty]
    by_cases isKey : i = nibble key k
    · rw [if_pos isKey, if_pos isKey, if_pos agree]
    · rw [if_neg isKey, if_neg isKey, if_neg (by rwa [agree])]
  · rw [if_neg agree, InternalNode.childRef_insertChildRef _ hi hmoved,
      InternalNode.childRef_insertChildRef _ hi hkey, InternalNode.childRef_empty]
    by_cases isKey : i = nibble key k
    · rw [if_neg (by rw [isKey]; exact Ne.symm agree), if_pos isKey, if_pos isKey, if_neg agree]
    · rw [if_neg isKey, if_neg isKey]

/-- Every reference of a node of the split is of the new version. -/
theorem splitNode_version {version : Nat} {key movedKey : Key} {k : Nat} (hk : k < 64)
    {i : UInt8} (hi : i.toNat < 16) {ref : ChildRef}
    (hasRef : (splitNode version key movedKey k).childRef i = some ref) : ref.version = version := by
  rw [splitNode_childRef version key movedKey hk hi] at hasRef
  split at hasRef
  · cases hasRef
    split <;> rfl
  · split at hasRef
    · cases hasRef
      rfl
    · cases hasRef

variable {H : HashTree} {store : NodeStore} {contents : Contents} {version : Nat}
  {pending : Nibbles → Prop}

/-- A node of the split is well formed: its child towards the key is the next node of the chain
(the new leaf, at the fork), its other child at the fork is the moved leaf, and nothing else lies
below it. -/
theorem splitNode_ok {W : Nibbles → Option WorkingNode} {key movedKey : Key} {k : Nat}
    (hk : k < 64) (sameAbove : new movedKey k = new key k)
    (vacant : ∀ key', Under key' (new key k) → key' ≠ key → key' ≠ movedKey → contents key' = none)
    (towardsKey : (W (new key (k + 1))).map (·.inner.isLeaf) =
      some (if nibble movedKey k = nibble key k then ChildRef.internal version
        else ChildRef.leaf version).isLeaf)
    (towardsMoved : nibble movedKey k ≠ nibble key k →
      (W (new movedKey (k + 1))).map (·.inner.isLeaf) = some true) :
    InternalOk H store contents W (new key k) (splitNode version key movedKey k) := by
  have hkey := nibble_lt key hk
  refine ⟨⟨key, rfl⟩, hk,
    ⟨_, hkey, by rw [splitNode_childRef version key movedKey hk hkey, if_pos rfl]; rfl⟩,
    fun i hi => ?_⟩
  by_cases isKey : i = nibble key k
  · -- the child towards the key
    subst isKey
    refine (slotOk_of_some (by rw [splitNode_childRef version key movedKey hk hi, if_pos rfl])).mpr
      ⟨_, push_new key hk, ?_⟩
    obtain ⟨working, found, isLeaf⟩ := Option.map_eq_some_iff.mp towardsKey
    exact (childOk_of_working found).mpr isLeaf
  by_cases isMoved : i = nibble movedKey k
  · -- the moved leaf, at the fork
    subst isMoved
    have pushed : (new key k).push (nibble movedKey k) = some (new movedKey (k + 1)) := by
      rw [← sameAbove]
      exact push_new movedKey hk
    refine (slotOk_of_some (by rw [splitNode_childRef version key movedKey hk hi, if_neg isKey,
      if_pos rfl])).mpr ⟨_, pushed, ?_⟩
    obtain ⟨working, found, isLeaf⟩ := Option.map_eq_some_iff.mp (towardsMoved isKey)
    exact (childOk_of_working found).mpr isLeaf
  · refine (slotOk_of_none (by rw [splitNode_childRef version key movedKey hk hi, if_neg isKey,
      if_neg isMoved])).mpr fun key' under digit => ?_
    rw [new_nibbleCount] at digit
    exact vacant key' under (fun same => isKey (by rw [← digit, same]))
      (fun same => isMoved (by rw [← digit, same]))

/-- A node of the chain is the parent of each child it refers to, by a reference of the new
version. -/
theorem splitNode_parentOk {W' : Nibbles → Option WorkingNode} {key movedKey : Key} {k : Nat}
    {prev : Option Nat} (hk : k < 64)
    (found : W' (new key k) = some ⟨.internal (splitNode version key movedKey k), prev⟩)
    {i : UInt8} (hi : i.toNat < 16) {child : Nibbles} (pushed : (new key k).push i = some child)
    (hasRef : ((splitNode version key movedKey k).childRef i).isSome) :
    ParentOk W' version pending child := by
  obtain ⟨ref, hasRef⟩ := Option.isSome_iff_exists.mp hasRef
  exact ⟨new key k, i, _, _, ref, splitLast_of_push (under_new _ _) hk hi pushed, found, rfl, hasRef,
    Or.inl (splitNode_version hk hi hasRef)⟩

/-- Nothing of the working set lies below a working leaf. -/
theorem WsInv.none_below_leaf {W : Nibbles → Option WorkingNode}
    (inv : WsInv H store contents W version pending) {q : Nibbles} {working : WorkingNode}
    {leaf : LeafNode} (found : W q = some working) (isLeaf : working.inner = .leaf leaf)
    {key : Key} (under : Under key q) {k : Nat} (deeper : q.nibbleCount < k) :
    W (new key k) = none := by
  cases atPos : W (new key k) with
  | none => rfl
  | some _ =>
    -- the leaf would be an internal node above it
    obtain ⟨w, node, _, above, internal, _⟩ := inv.ancestor (by rw [atPos]; rfl) deeper
    rw [under, found] at above
    cases above
    rw [isLeaf] at internal
    cases internal

/-- `update_moved_leaf_ref` at a working position of the path: the parent's reference towards it
now says internal node, and nothing else changes. -/
theorem updateMovedLeafRef_spec {W : WorkingPatchSet}
    (inv : WsInv H store contents W.getWorking version pending) {key : Key} {n : Nat}
    (present : (W.getWorking (new key n)).isSome) (small : n ≤ 64) :
    ∃ Wₐ, TreeUpdater.updateMovedLeafRef W (new key n) = some Wₐ ∧
      Wₐ.rootVersion = W.rootVersion ∧
      (∀ q, ¬ (Under key q ∧ q.nibbleCount + 1 = n) → Wₐ.getWorking q = W.getWorking q) ∧
      (∀ q, (Wₐ.getWorking q).map (·.inner.isLeaf) = (W.getWorking q).map (·.inner.isLeaf)) ∧
      ∀ m, m + 1 = n → ∃ working node ref, W.getWorking (new key m) = some working ∧
        working.inner = .internal node ∧ node.childRef (nibble key m) = some ref ∧
        Wₐ.getWorking (new key m) = some ⟨.internal (node.insertChildRef (nibble key m)
          { ref with isLeaf := false }), working.prevVersion⟩ := by
  cases n with
  | zero =>
    -- the root has no parent
    refine ⟨W, by simp [TreeUpdater.updateMovedLeafRef, Nibbles.splitLast], rfl, fun _ _ => rfl,
      fun _ => rfl, fun m last => absurd last (Nat.succ_ne_zero m)⟩
  | succ p =>
    obtain ⟨working, node, ref, found, internal, hasRef⟩ :=
      inv.ancestor present (Nat.lt_succ_self p)
    obtain ⟨Wₐ, updated, versionₐ, lookupₐ⟩ :=
      updateChildRef_eq_some (f := fun ref => { ref with isLeaf := false }) found internal hasRef
    refine ⟨Wₐ, ?_, versionₐ, fun q notParent => ?_, fun q => ?_, fun m last => ?_⟩
    · simp only [TreeUpdater.updateMovedLeafRef, splitLast_new key (show p < 64 by omega)]
      exact updated
    · rw [lookupₐ, if_neg fun isParent => notParent ⟨by rw [isParent]; rfl, by rw [isParent]; rfl⟩]
    · rw [lookupₐ]
      split
      · next isParent => rw [isParent, found, Option.map_some, Option.map_some, internal]; rfl
      · rfl
    · obtain rfl : m = p := by omega
      exact ⟨working, node, ref, found, internal, hasRef, by rw [lookupₐ, if_pos rfl]⟩

end Split

/-! ### The split of a leaf -/

section SplitStep

variable {H : HashTree} {store : NodeStore} {contents : Contents} {version : Nat}
  {W W₁ W' : Nibbles → Option WorkingNode} {entry : TreeEntry} {start : Nibbles}
  {remaining : List (TreeEntry × Nibbles)} {n : Nat}

/-- An insertion that splits the leaf of another key found at depth `n` of the entry's path:
before the bump, `W₁` has the chain of split nodes from depth `n` down to the fork at the first
nibble `d` where the keys differ, the entry's leaf and the moved leaf below the fork, and the old
nodes everywhere else off the path above. -/
theorem WsInv.insertSplit
    (inv : WsInv H store contents W version (Pending ((entry, start) :: remaining)))
    {leaf : LeafNode} {working : WorkingNode} {d : Nat}
    (found : W (new entry.key n) = some working) (isLeaf : working.inner = .leaf leaf)
    (holds : LeafHolds contents (new entry.key n) leaf)
    (deepest : ∀ m, (W (new entry.key m)).isSome → m ≤ n)
    (low : n ≤ d) (high : d < 64) (differ : nibble leaf.fullKey d ≠ nibble entry.key d)
    (agree : ∀ k, n ≤ k → k < d → nibble leaf.fullKey k = nibble entry.key k)
    (bumped : BumpedFrom W₁ W' entry.key n version)
    (atSplit : ∀ k, n ≤ k → k ≤ d → W₁ (new entry.key k) =
      some ⟨.internal (splitNode version entry.key leaf.fullKey k),
        (W (new entry.key k)).bind (·.prevVersion)⟩)
    (atNew : W₁ (new entry.key (d + 1)) = some ⟨.leaf (LeafNode.new entry), none⟩)
    (atMoved : W₁ (new leaf.fullKey (d + 1)) = some ⟨.leaf leaf, none⟩)
    (others : ∀ q, q ≠ new leaf.fullKey (d + 1) →
      ¬ (Under entry.key q ∧ q.nibbleCount ≤ d + 1) → W₁ q = W q)
    (path : ∀ m < n, PathBumped W W' entry.key version m) :
    WsInv H store (contents.write entry) W' version (Pending remaining) ∧ Grows W W' := by
  have sameFork : new leaf.fullKey d = new entry.key d := new_eq_new_of_agree holds.under agree
  have apart : ∀ key, Under key (new leaf.fullKey (d + 1)) → key ≠ entry.key :=
    fun key under same => differ (by rw [← nibble_of_under_succ high under, same])
  have bottom : ∀ q, n ≤ q.nibbleCount → W' q = W₁ q := fun q deep => bumped.of_not_above (by omega)
  have movedPresent : W' (new leaf.fullKey (d + 1)) = some ⟨.leaf leaf, none⟩ := by
    rw [bottom _ (show n ≤ d + 1 by omega), atMoved]
  have movedPushed : (new entry.key d).push (nibble leaf.fullKey d) =
      some (new leaf.fullKey (d + 1)) := by
    rw [← sameFork]
    exact push_new _ high
  -- the keys agree above the fork: only the fork has a second child
  have forkOnly : ∀ k, n ≤ k → k ≤ d → nibble leaf.fullKey k ≠ nibble entry.key k → k = d :=
    fun k lowK highK apartK => by
      by_contra notFork
      exact apartK (agree k lowK (by omega))
  -- the child towards the key of a node of the chain: the next node, or the entry's leaf
  have nextOnChain : ∀ k, n ≤ k → k ≤ d → (W' (new entry.key (k + 1))).map (·.inner.isLeaf) =
      some (if nibble leaf.fullKey k = nibble entry.key k then ChildRef.internal version
        else ChildRef.leaf version).isLeaf := by
    intro k lowK highK
    rw [bottom _ (show n ≤ k + 1 by omega)]
    rcases Nat.lt_or_eq_of_le highK with inner | rfl
    · rw [atSplit (k + 1) (by omega) inner, if_pos (agree k lowK inner)]
      rfl
    · rw [atNew, if_neg differ]
      rfl
  -- from depth `n` down there are the chain and the two leaves below the fork
  have region : ∀ q w, (Under entry.key q ∧ n ≤ q.nibbleCount) ∨ q = new leaf.fullKey (d + 1) →
      W' q = some w →
      (∃ k, n ≤ k ∧ k ≤ d ∧ q = new entry.key k ∧
        w = ⟨.internal (splitNode version entry.key leaf.fullKey k),
          (W (new entry.key k)).bind (·.prevVersion)⟩) ∨
      (q = new entry.key (d + 1) ∧ w = ⟨.leaf (LeafNode.new entry), none⟩) ∨
      (q = new leaf.fullKey (d + 1) ∧ w = ⟨.leaf leaf, none⟩) := by
    intro q w onPath found'
    rcases onPath with ⟨under, deep⟩ | isMoved
    · obtain ⟨k, rfl⟩ : ∃ k, q = new entry.key k := ⟨_, under.symm⟩
      rw [bottom _ deep] at found'
      rw [new_nibbleCount] at deep
      by_cases inChain : k ≤ d
      · rw [atSplit k deep inChain] at found'
        exact Or.inl ⟨k, deep, inChain, rfl, (Option.some.inj found').symm⟩
      by_cases isNew : k = d + 1
      · subst isNew
        rw [atNew] at found'
        exact Or.inr (Or.inl ⟨rfl, (Option.some.inj found').symm⟩)
      · -- nothing of the old working set lies deeper than the old leaf
        exfalso
        rw [others _ (new_ne_new (by omega))
          fun ⟨_, shallow⟩ => by rw [new_nibbleCount] at shallow; omega] at found'
        have := deepest k (by rw [found']; rfl)
        omega
    · rw [isMoved, movedPresent] at found'
      exact Or.inr (Or.inr ⟨isMoved, (Option.some.inj found').symm⟩)
  have frame : ∀ q, ¬ Under entry.key q → ¬ q = new leaf.fullKey (d + 1) → W' q = W q := by
    intro q offPath notMoved
    rw [bumped.of_not_above fun ⟨_, onPath⟩ => offPath onPath,
      others q notMoved fun ⟨onPath, _⟩ => offPath onPath]
  have keeps : ∀ q, (W q).isSome → (W' q).isSome := by
    intro q old
    by_cases above : q.nibbleCount < n ∧ Under entry.key q
    · obtain ⟨m, rfl⟩ : ∃ m, q = new entry.key m := ⟨_, above.2.symm⟩
      obtain ⟨_, _, _, _, _, _, found', _⟩ := path m above.1
      rw [found']
      rfl
    rw [bumped.of_not_above above]
    by_cases isMoved : q = new leaf.fullKey (d + 1)
    · rw [isMoved, atMoved]
      rfl
    by_cases onChain : Under entry.key q ∧ q.nibbleCount ≤ d + 1
    · obtain ⟨k, rfl⟩ : ∃ k, q = new entry.key k := ⟨_, onChain.1.symm⟩
      have deep : n ≤ k := Nat.le_of_not_lt fun lt => above ⟨lt, rfl⟩
      have shallow : k ≤ d + 1 := onChain.2
      rcases Nat.lt_or_ge d k with deeper | inChain
      · rw [show k = d + 1 by omega, atNew]
        rfl
      · rw [atSplit k deep inChain]
        rfl
    · rw [others q isMoved onChain]
      exact old
  have ws' : WsInv H store (contents.write entry) W' version (Pending remaining) := by
    refine inv.insertAlong (by omega) deepest
      (fun working' node found' => by
        rw [found] at found'
        cases found'
        rw [isLeaf]
        exact Node.noConfusion)
      path (fun q (isMoved : q = new leaf.fullKey (d + 1)) => ?_)
      (fun q isMoved => ⟨new leaf.fullKey d, nibble leaf.fullKey d,
        by rw [isMoved]; exact splitLast_new _ high, by rw [sameFork]; rfl, low⟩)
      frame (fun q w onPath found' => ?_)
      (root_ne_none_of_path path (by rw [bottom _ (le_refl n), atSplit n (le_refl n) low]; rfl))
    · rw [isMoved]
      exact inv.none_below_leaf found isLeaf holds.under (show n < d + 1 by omega)
    rcases region q w onPath found' with ⟨k, lowK, highK, rfl, rfl⟩ | ⟨rfl, rfl⟩ | ⟨rfl, rfl⟩
    · -- a node of the chain
      have hk : k < 64 := by omega
      refine ⟨splitNode_ok hk (under_new_of_le (show Under leaf.fullKey (new entry.key d) from sameFork) highK)
          (fun key' under notKey notMoved => by
            rw [Contents.write_of_ne _ _ notKey]
            exact holds.vacant key' (under_new_of_le under lowK) notMoved)
          (nextOnChain k lowK highK) (fun apartK => ?_),
        fun prev hprev => ?_, fun node j ref internal hj hasRef => ?_, fun nonRoot => ?_⟩
      · obtain rfl := forkOnly k lowK highK apartK
        rw [movedPresent]
        rfl
      · obtain ⟨w, hw, hp⟩ := Option.bind_eq_some_iff.mp hprev
        exact inv.prevLt _ w prev hw hp
      · cases internal
        exact le_of_eq (splitNode_version hk hj hasRef)
      · -- the top of the chain hangs from the bumped path, the others from the chain above
        rcases Nat.lt_or_eq_of_le lowK with deeper | rfl
        · obtain ⟨j, rfl⟩ : ∃ j, k = j + 1 := ⟨k - 1, by omega⟩
          exact splitNode_parentOk (by omega) (by rw [bottom _ (show n ≤ j by omega),
            atSplit j (by omega) (by omega)]) (nibble_lt _ (by omega)) (push_new _ (by omega))
            (by rw [splitNode_childRef _ _ _ (by omega) (nibble_lt _ (by omega)), if_pos rfl]; rfl)
        · rw [new_nibbleCount] at nonRoot
          obtain ⟨m, rfl⟩ := Nat.exists_eq_succ_of_ne_zero nonRoot
          exact (path m (by omega)).parentOk (by omega)
    · -- the entry's leaf, below the fork
      refine ⟨LeafHolds.ofWrite rfl (show d + 1 ≤ 64 by omega) fun key under _ =>
          holds.vacant key (under_new_of_le under (by omega)) fun same =>
            differ (by rw [← same]; exact nibble_of_under_succ high under),
        (fun _ never => nomatch never), (fun _ _ _ internal => nomatch internal), fun _ => ?_⟩
      exact splitNode_parentOk high (by rw [bottom _ low, atSplit d low (le_refl d)])
        (nibble_lt _ high) (push_new _ high)
        (by rw [splitNode_childRef _ _ _ high (nibble_lt _ high), if_pos rfl]; rfl)
    · -- the moved leaf, below the fork
      refine ⟨LeafHolds.moved holds rfl (show d + 1 ≤ 64 by omega) (fun key under => ?_) apart,
        (fun _ never => nomatch never), (fun _ _ _ internal => nomatch internal), fun _ => ?_⟩
      · have above := under_new_of_le under (show n ≤ d + 1 by omega)
        rwa [show new leaf.fullKey n = new entry.key n from holds.under] at above
      · exact splitNode_parentOk high (by rw [bottom _ low, atSplit d low (le_refl d)])
          (nibble_lt _ high) movedPushed
          (by rw [splitNode_childRef _ _ _ high (nibble_lt _ high), if_neg differ,
            if_pos rfl]; rfl)
  refine ⟨ws', Grows.insertAlong ws' path frame keeps ?_⟩
  intro q w node j ref onPath found' internal hj hasRef
  rcases region q w onPath found' with ⟨k, lowK, highK, rfl, rfl⟩ | ⟨rfl, rfl⟩ | ⟨rfl, rfl⟩
  · cases internal
    rw [splitNode_childRef _ _ _ (by omega) hj] at hasRef
    split at hasRef
    · -- towards the key: the next node of the chain or the entry's leaf
      next isKey =>
      subst isKey
      obtain ⟨_, next, _⟩ := Option.map_eq_some_iff.mp (nextOnChain k lowK highK)
      exact ⟨_, push_new _ (by omega), by rw [next]; rfl⟩
    · split at hasRef
      · -- the moved leaf, at the fork
        next notKey isMoved =>
        subst isMoved
        obtain rfl := forkOnly k lowK highK notKey
        exact ⟨_, movedPushed, by rw [movedPresent]; rfl⟩
      · cases hasRef
  · cases internal
  · cases internal

end SplitStep

/-! ### The cases of an insertion -/

section Cases

variable {H : HashTree} {store : NodeStore} {contents : Contents} {version : Nat}
  {W : WorkingPatchSet} {entry : TreeEntry} {start : Nibbles}
  {remaining : List (TreeEntry × Nibbles)}

/-- The insertion loop goes on from the working set after one insertion, if that keeps the
invariant and only adds references into the working set. -/
theorem InsertInv.next {W' : WorkingPatchSet} {contents' : Contents}
    (state : InsertInv H store contents version W ((entry, start) :: remaining))
    (rootVersion : W'.rootVersion = W.rootVersion)
    (ws : WsInv H store contents' W'.getWorking version (Pending remaining))
    (grows : Grows W.getWorking W'.getWorking) :
    InsertInv H store contents' version W' remaining where
  rootVersion := rootVersion.trans state.rootVersion
  ws := ws
  starts entry' start' member := by
    obtain ⟨under, startOk⟩ := state.starts entry' start' (List.mem_cons_of_mem _ member)
    exact ⟨under, startOk.imp_left (grows.keeps start')⟩
  loaded entry' start' member :=
    (state.loaded entry' start' (List.mem_cons_of_mem _ member)).grow grows

/-- A leaf of the key: its value and index are replaced, and the log holds the old ones. -/
theorem insert_leafMatch (state : InsertInv H store contents version W ((entry, start) :: remaining))
    {n : Nat} {working : WorkingNode} {leaf : LeafNode}
    (traversed : W.traverse entry.key start = some (.leafMatch (new entry.key n) leaf))
    (deepest : ∀ m, (W.getWorking (new entry.key m)).isSome → m ≤ n)
    (found : W.getWorking (new entry.key n) = some working) (isLeaf : working.inner = .leaf leaf)
    (isKey : leaf.fullKey = entry.key) :
    ∃ data W', TreeUpdater.insert W entry start = some (writeLog contents entry.key, data, W') ∧
      InsertInv H store (contents.write entry) version W' remaining := by
  have inv := state.ws
  have holds : LeafHolds contents (new entry.key n) leaf := by
    have ok := inv.nodeOk _ _ found
    rwa [isLeaf] at ok
  have small : n ≤ 64 := holds.depth_le
  have present : (W.getWorking (new entry.key n)).isSome := by rw [found]; rfl
  let leaf' := LeafNode.new entry
  let W₁ := W.insert (new entry.key n) (.leaf leaf')
  have lookup₁ : ∀ q, W₁.getWorking q =
      if q = new entry.key n then some ⟨.leaf leaf', working.prevVersion⟩ else W.getWorking q := by
    intro q
    rw [getWorking_insert, found]
    rfl
  have others : ∀ q, q ≠ new entry.key n → W₁.getWorking q = W.getWorking q :=
    fun q isN => by rw [lookup₁, if_neg isN]
  -- a leaf replaced by a leaf: every position keeps its type
  have kinds₁ : ∀ q, (W₁.getWorking q).map (·.inner.isLeaf) =
      (W.getWorking q).map (·.inner.isLeaf) := by
    intro q
    rw [lookup₁]
    split
    · next isN => rw [isN, found, Option.map_some, Option.map_some, isLeaf]; rfl
    · rfl
  obtain ⟨W', run, rootVersion', bumped⟩ := bumpVersions_spec version entry.key n W₁ small
    fun m hm => by rw [others _ (new_ne_new (by omega))]; exact inv.ancestor present hm
  obtain ⟨ws', grows⟩ := inv.insertLeaf small deepest
    (fun working' node found' => by rw [found] at found'; cases found'; rw [isLeaf]; exact Node.noConfusion)
    (fun key under other => holds.vacant key under (by rwa [isKey])) bumped (by rw [lookup₁, if_pos rfl]) (inv.prevLt _ _ · found)
    (fun q isN _ => others q isN)
    (fun m hm => inv.pathBumped bumped present hm hm (others _ (new_ne_new (by omega))) (kinds₁ _))
  refine ⟨NewLeafData.new (new entry.key n) leaf', W', ?_, state.next rootVersion' ws' grows⟩
  have log : writeLog contents entry.key = .updated leaf.leafIndex leaf.valueHash := by
    rw [writeLog, ← isKey, holds.found]
  rw [log, ← state.rootVersion] at *
  simp [TreeUpdater.insert, traversed, TraverseOutcome.position, NewLeafData.new,
    LeafNode.updateFrom_of_key isKey, W₁, leaf', run]

/-- An empty tree: the entry's leaf becomes the root. -/
theorem insert_missingRoot (state : InsertInv H store contents version W ((entry, start) :: remaining))
    (traversed : W.traverse entry.key start = some (.missingChild (new entry.key 0)))
    (missing : W.getWorking (new entry.key 0) = none) :
    ∃ data W', TreeUpdater.insert W entry start = some (writeLog contents entry.key, data, W') ∧
      InsertInv H store (contents.write entry) version W' remaining := by
  have inv := state.ws
  rw [new_zero] at missing
  obtain ⟨noNode, noKey⟩ := inv.rootEmpty missing
  let leaf' := LeafNode.new entry
  -- `set_root_node`, then the insertion of the new leaf at the same position
  let W₁ := (W.insert Nibbles.EMPTY (.leaf leaf')).insert Nibbles.EMPTY (.leaf leaf')
  have lookup₁ : ∀ q, W₁.getWorking q =
      if q = Nibbles.EMPTY then some ⟨.leaf leaf', none⟩ else W.getWorking q := by
    intro q
    rw [getWorking_insert, getWorking_insert, getWorking_insert, if_pos rfl, missing]
    by_cases isRoot : q = Nibbles.EMPTY
    · rw [if_pos isRoot, if_pos isRoot]
      rfl
    · rw [if_neg isRoot, if_neg isRoot, if_neg isRoot]
  -- nothing lies above the root: the bump changes nothing
  have bumped : BumpedFrom W₁.getWorking W₁.getWorking entry.key 0 version :=
    fun _ => (if_neg fun ⟨above, _⟩ => Nat.not_lt_zero _ above).symm
  obtain ⟨ws', grows⟩ := inv.insertLeaf (Nat.zero_le 64)
    (fun m present => by rw [noNode] at present; cases present)
    (fun working _ found => by rw [noNode] at found; cases found)
    (fun key _ _ => noKey key) bumped (by rw [lookup₁, new_zero, if_pos rfl])
    (fun _ never => by cases never)
    (fun q isN _ => by rw [lookup₁, if_neg (by rwa [new_zero] at isN)])
    (fun m hm => absurd hm (Nat.not_lt_zero m))
  refine ⟨NewLeafData.new Nibbles.EMPTY leaf', W₁, ?_, state.next rfl ws' grows⟩
  have log : writeLog contents entry.key = .inserted := by rw [writeLog, noKey]
  rw [log]
  simp [TreeUpdater.insert, traversed, TraverseOutcome.position, NewLeafData.new,
    TreeUpdater.setRootNode, TreeUpdater.bumpVersions, W₁, leaf', new_zero]

/-- A missing child below a working internal node: the entry's leaf hangs there. -/
theorem insert_missingChild (state : InsertInv H store contents version W ((entry, start) :: remaining))
    {p : Nat} {parentWorking : WorkingNode} {parent : InternalNode}
    (traversed : W.traverse entry.key start = some (.missingChild (new entry.key (p + 1))))
    (deepest : ∀ m, (W.getWorking (new entry.key m)).isSome → m ≤ p + 1)
    (missing : W.getWorking (new entry.key (p + 1)) = none)
    (parentFound : W.getWorking (new entry.key p) = some parentWorking)
    (internal : parentWorking.inner = .internal parent)
    (noRef : parent.childRef (nibble entry.key p) = none) :
    ∃ data W', TreeUpdater.insert W entry start = some (writeLog contents entry.key, data, W') ∧
      InsertInv H store (contents.write entry) version W' remaining := by
  have inv := state.ws
  have parentOk : InternalOk H store contents W.getWorking (new entry.key p) parent := by
    have ok := inv.nodeOk _ _ parentFound
    rwa [internal] at ok
  have depth : p < 64 := parentOk.depth_lt
  have hj := nibble_lt entry.key depth
  have parentPresent : (W.getWorking (new entry.key p)).isSome := by rw [parentFound]; rfl
  -- nothing lies below the missing reference
  have vacant : ∀ key, Under key (new entry.key (p + 1)) → contents key = none := by
    intro key under
    obtain ⟨underParent, digit⟩ :=
      (under_push_iff (under_new entry.key p) depth hj (push_new entry.key depth) key).mp under
    exact (slotOk_of_none noRef).mp (parentOk.slots _ hj) key underParent digit
  let leaf' := LeafNode.new entry
  let parent' := parent.insertChildRef (nibble entry.key p) (ChildRef.leaf version)
  obtain ⟨Wₐ, updated, versionₐ, lookupₐ⟩ :=
    updateInternal_eq_some (f := fun parent => some (parent.insertChildRef (nibble entry.key p)
      (ChildRef.leaf version))) parentFound internal rfl
  let W₁ := Wₐ.insert (new entry.key (p + 1)) (.leaf leaf')
  have lookup₁ : ∀ q, W₁.getWorking q =
      if q = new entry.key (p + 1) then some ⟨.leaf leaf', none⟩
      else if q = new entry.key p then some ⟨.internal parent', parentWorking.prevVersion⟩
      else W.getWorking q := by
    intro q
    rw [getWorking_insert, lookupₐ, lookupₐ, if_neg (new_ne_new (by omega)), missing]
    rfl
  have others : ∀ q, q ≠ new entry.key (p + 1) → q ≠ new entry.key p →
      W₁.getWorking q = W.getWorking q :=
    fun q isLeafPos isParent => by rw [lookup₁, if_neg isLeafPos, if_neg isParent]
  obtain ⟨W', run, rootVersion', bumped⟩ :=
    bumpVersions_spec version entry.key (p + 1) W₁ (by omega) fun m hm => by
      rcases Nat.lt_succ_iff_lt_or_eq.mp hm with above | rfl
      · rw [others _ (new_ne_new (by omega)) (new_ne_new (by omega))]
        exact inv.ancestor parentPresent above
      · rw [lookup₁, if_neg (new_ne_new (by omega)), if_pos rfl]
        exact ⟨_, parent', ChildRef.leaf version, rfl, rfl,
          by rw [InternalNode.childRef_insertChildRef _ hj hj, if_pos rfl]⟩
  -- the parent is an internal node before and after: every position but the leaf keeps its type
  have kinds₁ : ∀ q, q ≠ new entry.key (p + 1) →
      (W₁.getWorking q).map (·.inner.isLeaf) = (W.getWorking q).map (·.inner.isLeaf) := by
    intro q isLeafPos
    rw [lookup₁, if_neg isLeafPos]
    split
    · next isParent => rw [isParent, parentFound, Option.map_some, Option.map_some, internal]; rfl
    · rfl
  have path : ∀ m < p + 1, PathBumped W.getWorking W'.getWorking entry.key version m := by
    intro m hm
    rcases Nat.lt_succ_iff_lt_or_eq.mp hm with above | rfl
    · exact inv.pathBumped bumped parentPresent above hm
        (others _ (new_ne_new (by omega)) (new_ne_new (by omega))) (kinds₁ _ (new_ne_new (by omega)))
    · refine bumped.pathBumped hm depth parentFound internal
        (by rw [lookup₁, if_neg (new_ne_new (by omega)), if_pos rfl])
        (fun i hi other => by rw [InternalNode.childRef_insertChildRef _ hi hj, if_neg other])
        (by rw [InternalNode.childRef_insertChildRef _ hj hj, if_pos rfl]) (le_refl version) ?_
      rw [lookup₁, if_pos rfl]
      rfl
  obtain ⟨ws', grows⟩ := inv.insertLeaf (by omega) deepest
    (fun working _ found => by rw [missing] at found; cases found)
    (fun key under _ => vacant key under) bumped (by rw [lookup₁, if_pos rfl])
    (fun _ never => by cases never)
    (fun q isLeafPos outside => others q isLeafPos fun isParent => by
      rcases outside with offPath | deep
      · exact offPath (by rw [isParent]; rfl)
      · rw [isParent, new_nibbleCount] at deep; omega)
    path
  refine ⟨NewLeafData.new (new entry.key (p + 1)) leaf', W', ?_, state.next
    (rootVersion'.trans versionₐ) ws' grows⟩
  have log : writeLog contents entry.key = .inserted := by
    rw [writeLog, vacant entry.key (under_new _ _)]
  rw [log, ← state.rootVersion] at *
  simp [TreeUpdater.insert, traversed, TraverseOutcome.position, NewLeafData.new,
    splitLast_new entry.key depth, updated, W₁, leaf', run]

/-- A leaf of another key: both leaves go below a chain of internal nodes that ends in a fork at
the first nibble where the keys differ. -/
theorem insert_leafMismatch
    (state : InsertInv H store contents version W ((entry, start) :: remaining))
    {n : Nat} {working : WorkingNode} {leaf : LeafNode}
    (traversed : W.traverse entry.key start = some (.leafMismatch (new entry.key n) leaf))
    (deepest : ∀ m, (W.getWorking (new entry.key m)).isSome → m ≤ n)
    (found : W.getWorking (new entry.key n) = some working) (isLeaf : working.inner = .leaf leaf)
    (notKey : leaf.fullKey ≠ entry.key) :
    ∃ data W', TreeUpdater.insert W entry start = some (writeLog contents entry.key, data, W') ∧
      InsertInv H store (contents.write entry) version W' remaining := by
  have inv := state.ws
  have holds : LeafHolds contents (new entry.key n) leaf := by
    have ok := inv.nodeOk _ _ found
    rwa [isLeaf] at ok
  have present : (W.getWorking (new entry.key n)).isSome := by rw [found]; rfl
  -- the fork is at the first nibble where the two keys differ
  obtain ⟨d, low, high, differ, agree⟩ := exists_first_difference (n := n) notKey holds.under
  have positionsDiffer : new leaf.fullKey (d + 1) ≠ new entry.key (d + 1) := fun same =>
    differ (nibble_of_under_succ high (show Under leaf.fullKey (new entry.key (d + 1)) by
      rw [← same]; rfl))
  obtain ⟨Wₐ, moved, versionₐ, sameₐ, kindsₐ, parentₐ⟩ :=
    updateMovedLeafRef_spec inv present (by omega)
  obtain ⟨Wₛ, split, versionₛ, lookupₛ⟩ := splitLeaf_spec version entry.key leaf differ
    (2 * KEY_SIZE - n) n Wₐ low (by unfold KEY_SIZE; omega) agree
  let newLeaf := LeafNode.new entry
  let W₁ := (Wₛ.insert (new entry.key (d + 1)) (.leaf newLeaf)).insert
    (new leaf.fullKey (d + 1)) (.leaf leaf)
  have splitAbove : ∀ q, ¬ (n ≤ q.nibbleCount ∧ q.nibbleCount ≤ d ∧
      q = new entry.key q.nibbleCount) → Wₛ.getWorking q = Wₐ.getWorking q :=
    fun q outside => by rw [lookupₛ, if_neg outside]
  -- below the fork, the old working set has nothing
  have deepOld : ∀ key : Key, Wₛ.getWorking (new key (d + 1)) = W.getWorking (new key (d + 1)) := by
    intro key
    rw [splitAbove _ fun ⟨_, beyond, _⟩ => by rw [new_nibbleCount] at beyond; omega,
      sameₐ _ fun ⟨_, last⟩ => by rw [new_nibbleCount] at last; omega]
  have lookup₁ : ∀ q, W₁.getWorking q =
      if q = new leaf.fullKey (d + 1) then some ⟨.leaf leaf, none⟩
      else if q = new entry.key (d + 1) then some ⟨.leaf newLeaf, none⟩
      else Wₛ.getWorking q := by
    intro q
    rw [getWorking_insert, getWorking_insert, getWorking_insert, if_neg positionsDiffer, deepOld,
      deepOld, inv.none_below_leaf found isLeaf holds.under (show n < d + 1 by omega),
      inv.none_below_leaf found isLeaf (under_new _ _) (show n < d + 1 by omega)]
    rfl
  have upper : ∀ m < n, W₁.getWorking (new entry.key m) = Wₐ.getWorking (new entry.key m) := by
    intro m hm
    rw [lookup₁, if_neg (new_ne_new (by omega)), if_neg (new_ne_new (by omega)),
      splitAbove _ fun ⟨lowM, _⟩ => by rw [new_nibbleCount] at lowM; omega]
  have untouched : ∀ m, m + 1 ≠ n → Wₐ.getWorking (new entry.key m) = W.getWorking (new entry.key m) :=
    fun m last => sameₐ _ fun ⟨_, last'⟩ => last (by rw [new_nibbleCount] at last'; exact last')
  obtain ⟨W', run, rootVersion', bumped⟩ := bumpVersions_spec version entry.key n W₁ (by omega)
    fun m hm => by
      rw [upper m hm]
      by_cases last : m + 1 = n
      · obtain ⟨_, _, ref, _, _, _, aFound⟩ := parentₐ m last
        have hj := nibble_lt entry.key (show m < 64 by omega)
        exact ⟨_, _, { ref with isLeaf := false }, aFound, rfl,
          by rw [InternalNode.childRef_insertChildRef _ hj hj, if_pos rfl]⟩
      · rw [untouched m last]
        exact inv.ancestor present hm
  have path : ∀ m < n, PathBumped W.getWorking W'.getWorking entry.key version m := by
    intro m hm
    by_cases last : m + 1 = n
    · -- the parent of the old leaf: its reference now points to the top of the chain
      obtain ⟨_, _, ref, pFound, pInternal, pRef, aFound⟩ := parentₐ m last
      have hj := nibble_lt entry.key (show m < 64 by omega)
      have refLe : ({ ref with isLeaf := false } : ChildRef).version ≤ version :=
        inv.refsLe _ _ _ _ ref pFound pInternal hj pRef
      refine bumped.pathBumped hm (by omega) pFound pInternal (by rw [upper m hm, aFound])
        (fun i hi other => by rw [InternalNode.childRef_insertChildRef _ hi hj, if_neg other])
        (by rw [InternalNode.childRef_insertChildRef _ hj hj, if_pos rfl]) refLe ?_
      rw [last, lookup₁, if_neg (new_ne_new (by omega)), if_neg (new_ne_new (by omega)), lookupₛ,
        if_pos ⟨le_refl n, low, rfl⟩]
      rfl
    · exact inv.pathBumped bumped present hm hm (by rw [upper m hm, untouched m last])
        (by rw [upper (m + 1) (by omega), kindsₐ])
  obtain ⟨ws', grows⟩ := inv.insertSplit found isLeaf holds deepest low high differ agree bumped
    (fun k lowK highK => by
      rw [lookup₁, if_neg (new_ne_new (by omega)), if_neg (new_ne_new (by omega)), lookupₛ,
        if_pos ⟨lowK, highK, rfl⟩, new_nibbleCount, untouched k (by omega)])
    (by rw [lookup₁, if_neg positionsDiffer.symm, if_pos rfl])
    (by rw [lookup₁, if_pos rfl])
    (fun q notMoved outside => by
      rw [lookup₁, if_neg notMoved, if_neg fun isNew => outside ⟨by rw [isNew]; rfl,
        by rw [isNew, new_nibbleCount]⟩, splitAbove _ fun ⟨_, shallow, onPath⟩ =>
          outside ⟨onPath.symm, by omega⟩,
        sameₐ _ fun ⟨onPath, _⟩ => outside ⟨onPath, by omega⟩])
    path
  refine ⟨(NewLeafData.new (new entry.key (d + 1)) newLeaf).withAdjacentLeaf
    (new leaf.fullKey (d + 1)) leaf, W', ?_,
    state.next (rootVersion'.trans (versionₛ.trans versionₐ)) ws' grows⟩
  have log : writeLog contents entry.key = .inserted := by
    rw [writeLog, holds.vacant entry.key (under_new _ _) (Ne.symm notKey)]
  rw [log, ← state.rootVersion] at *
  simp [TreeUpdater.insert, traversed, TraverseOutcome.position, moved, split, NewLeafData.new,
    NewLeafData.withAdjacentLeaf, W₁, newLeaf, run]

/-- One insertion from a state of the loop: the log is the one of the reference map, and the
working set stands for the contents with the entry written. -/
theorem insert_spec (state : InsertInv H store contents version W ((entry, start) :: remaining)) :
    ∃ data W', TreeUpdater.insert W entry start = some (writeLog contents entry.key, data, W') ∧
      InsertInv H store (contents.write entry) version W' remaining := by
  have inv := state.ws
  obtain ⟨under, startOk⟩ := state.starts entry start List.mem_cons_self
  obtain ⟨outcome, traversed, ok⟩ :=
    traverse_spec inv (state.loaded entry start List.mem_cons_self) under startOk
  have deepest := fun m (present : (W.getWorking (new entry.key m)).isSome) =>
    ok.deepest inv present
  -- one case per end of the traversal
  cases outcome with
  | leafMatch nibbles leaf =>
    obtain ⟨n, working, rfl, found, isLeaf, isKey⟩ := ok
    exact insert_leafMatch state traversed deepest found isLeaf isKey
  | leafMismatch nibbles leaf =>
    obtain ⟨n, working, rfl, found, isLeaf, notKey⟩ := ok
    exact insert_leafMismatch state traversed deepest found isLeaf notKey
  | missingChild nibbles =>
    obtain ⟨n, rfl, missing, root | ⟨p, parentWorking, parent, rfl, parentFound, internal, noRef⟩⟩ :=
      ok
    · subst root
      exact insert_missingRoot state traversed missing
    · exact insert_missingChild state traversed deepest missing parentFound internal noRef

/-- The insertion loop over a block: the logs and the leaf count are those of the reference map,
and the working set stands for the map after the block. -/
theorem insertEntries_spec :
    ∀ (entries : List (TreeEntry × Nibbles)) (reference : Reference) (W : WorkingPatchSet),
      InsertInv H store reference.contents version W entries →
      ∃ W', Storage.insertEntries W reference.entries.length entries =
          some ((reference.writeBlock (entries.map (·.1))).1,
            (reference.writeBlock (entries.map (·.1))).2.entries.length, W') ∧
        InsertInv H store (reference.writeBlock (entries.map (·.1))).2.contents version W' []
  | [], _, W, state => ⟨W, rfl, state⟩
  | (entry, start) :: rest, reference, W, state => by
    obtain ⟨data, W₁, inserted, state₁⟩ := insert_spec state
    rw [← Reference.contents_write] at state₁
    obtain ⟨W', run, state'⟩ := insertEntries_spec rest (reference.write entry) W₁ state₁
    -- a new key adds one leaf
    have count : (if writeLog reference.contents entry.key = .inserted then
        reference.entries.length + 1 else reference.entries.length) =
        (reference.write entry).entries.length := by
      rw [Reference.length_write]
      exact if_congr (writeLog_eq_inserted_iff _ _) rfl rfl
    refine ⟨W', ?_, state'⟩
    simp [Storage.insertEntries, inserted, count, run, Reference.writeBlock]

end Cases

end ZksyncEra.MerkleTree
