import ZksyncEra.MerkleTree.Spec.WorkingTree
import ZksyncEra.MerkleTree.Storage

/-!
The walks of `TreeUpdater::insert` along the path of a key.

`traverse` goes down from the loaded ancestor through working internal nodes; with the path
loaded it ends at the working leaf on the path or at the first position the path leaves the
tree (`TraverseOk`), and no working node of the path lies deeper. `bumpVersions` raises the
version of every reference from the root down to the end of the traversal, and `splitLeaf`
hangs the chain of internal nodes down to the first nibble where two keys differ.
-/

namespace ZksyncEra.MerkleTree

open Nibbles WorkingPatchSet

/-! ### Traversal -/

/-- Where the traversal for `key` ends: the working leaf on its path, or the first position of
the path outside the working set, below a working internal node without a reference to it. -/
def TraverseOk (W : Nibbles → Option WorkingNode) (key : Key) : TraverseOutcome → Prop
  | .leafMatch nibbles leaf => ∃ n working, nibbles = new key n ∧ W nibbles = some working ∧
      working.inner = .leaf leaf ∧ leaf.fullKey = key
  | .leafMismatch nibbles leaf => ∃ n working, nibbles = new key n ∧ W nibbles = some working ∧
      working.inner = .leaf leaf ∧ leaf.fullKey ≠ key
  | .missingChild nibbles => ∃ n, nibbles = new key n ∧ W nibbles = none ∧
      (n = 0 ∨ ∃ m working parent, n = m + 1 ∧ W (new key m) = some working ∧
        working.inner = .internal parent ∧ parent.childRef (nibble key m) = none)

section Traverse

variable {H : HashTree} {store : NodeStore} {contents : Contents} {version : Nat}
  {pending : Nibbles → Prop} {W : WorkingPatchSet} {key : Key}

/-- The loop of `traverse`: from a working position of the path, or the root position, or the
child of a working internal node, it reaches where the path ends in the working set. -/
theorem traverseFrom_spec (inv : WsInv H store contents W.getWorking version pending)
    (loaded : PathLoaded W.getWorking key) :
    ∀ fuel idx, fuel + idx = 65 → idx ≤ 64 →
      ((W.getWorking (new key idx)).isSome ∨ idx = 0 ∨ ∃ m working parent, idx = m + 1 ∧
        W.getWorking (new key m) = some working ∧ working.inner = .internal parent) →
      ∃ outcome, W.traverseFrom key fuel idx = some outcome ∧
        TraverseOk W.getWorking key outcome := by
  intro fuel
  induction fuel with
  | zero => intro idx total small; omega
  | succ fuel ih =>
    intro idx total small reached
    cases found : W.getWorking (new key idx) with
    | none =>
      -- the path leaves the working set here
      refine ⟨.missingChild (new key idx), ?_, idx, rfl, found, ?_⟩
      · simp [traverseFrom, WorkingPatchSet.get, found]
      · rcases reached with present | root | ⟨m, working, parent, rfl, parentFound, internal⟩
        · rw [found] at present
          cases present
        · exact Or.inl root
        · cases hasRef : parent.childRef (nibble key m) with
          | none => exact Or.inr ⟨m, working, parent, rfl, parentFound, internal, hasRef⟩
          | some ref =>
            have childLoaded := loaded m working parent ref parentFound internal hasRef
            rw [found] at childLoaded
            cases childLoaded
    | some working =>
      cases inner : working.inner with
      | internal parent =>
        -- an internal node of the path: go one nibble down
        have depth : idx < 64 := by
          have ok := inv.nodeOk _ _ found
          rw [inner] at ok
          exact InternalOk.depth_lt ok
        obtain ⟨outcome, run, ok⟩ := ih (idx + 1) (by omega) (by omega)
          (Or.inr (Or.inr ⟨idx, working, parent, rfl, found, inner⟩))
        refine ⟨outcome, ?_, ok⟩
        simp only [traverseFrom, WorkingPatchSet.get, found, Option.map_some, inner]
        exact run
      | leaf leaf =>
        by_cases isKey : leaf.fullKey = key
        · refine ⟨.leafMatch (new key idx) leaf, ?_, idx, working, rfl, found, inner, isKey⟩
          simp [traverseFrom, WorkingPatchSet.get, found, inner, isKey]
        · refine ⟨.leafMismatch (new key idx) leaf, ?_, idx, working, rfl, found, inner, isKey⟩
          simp [traverseFrom, WorkingPatchSet.get, found, inner, isKey]

/-- `traverse` from a start on the path of `key` that is working or the root position. -/
theorem traverse_spec (inv : WsInv H store contents W.getWorking version pending)
    (loaded : PathLoaded W.getWorking key) {start : Nibbles} (under : Under key start)
    (startOk : (W.getWorking start).isSome ∨ start.nibbleCount = 0) :
    ∃ outcome, W.traverse key start = some outcome ∧ TraverseOk W.getWorking key outcome := by
  have depth : start.nibbleCount ≤ 64 := by
    rcases startOk with present | root
    · obtain ⟨working, found⟩ := Option.isSome_iff_exists.mp present
      exact inv.depth_le found
    · omega
  apply traverseFrom_spec inv loaded _ _ (by unfold KEY_SIZE; omega) depth
  rw [show new key start.nibbleCount = start from under]
  rcases startOk with present | root
  · exact Or.inl present
  · exact Or.inr (Or.inl root)

/-- No working node of the path of `key` lies below the end of the traversal. -/
theorem TraverseOk.deepest (inv : WsInv H store contents W.getWorking version pending)
    {outcome : TraverseOutcome} (ok : TraverseOk W.getWorking key outcome) {m : Nat}
    (present : (W.getWorking (new key m)).isSome) : m ≤ outcome.position.nibbleCount := by
  by_contra deeper
  push Not at deeper
  -- the end of the traversal would be a working internal node above `new key m`
  obtain ⟨working, parent, ref, found, internal, -⟩ := inv.ancestor present deeper
  cases outcome with
  | leafMatch nibbles leaf | leafMismatch nibbles leaf =>
    obtain ⟨n, working', rfl, found', inner', -⟩ := ok
    rw [TraverseOutcome.position, new_nibbleCount, found'] at found
    cases found
    rw [inner'] at internal
    cases internal
  | missingChild nibbles =>
    obtain ⟨n, rfl, missing, -⟩ := ok
    rw [TraverseOutcome.position, new_nibbleCount, missing] at found
    cases found

end Traverse

/-! ### Bumping versions -/

/-- The working node with the version of its reference at `j` raised to `version`. -/
def bumpRef (version : Nat) (j : UInt8) (working : WorkingNode) : WorkingNode :=
  match working.inner with
  | .internal parent =>
    ⟨.internal ((parent.updateChildRef j fun ref =>
      { ref with version := max ref.version version }).getD parent), working.prevVersion⟩
  | .leaf _ => working

theorem bumpRef_of_internal (version : Nat) {j : UInt8} {working : WorkingNode}
    {parent : InternalNode} {ref : ChildRef} (internal : working.inner = .internal parent)
    (hasRef : parent.childRef j = some ref) :
    bumpRef version j working = ⟨.internal (parent.insertChildRef j
      { ref with version := max ref.version version }), working.prevVersion⟩ := by
  simp [bumpRef, internal, InternalNode.updateChildRef, hasRef]

/-- `W'` is `W` with the references towards `key` of the nodes above depth `n` bumped. -/
def BumpedFrom (W W' : Nibbles → Option WorkingNode) (key : Key) (n version : Nat) : Prop :=
  ∀ q, W' q =
    if q.nibbleCount < n ∧ q = new key q.nibbleCount then
      (W q).map (bumpRef version (nibble key q.nibbleCount))
    else W q

/-- `bumpVersions` from `new key n` raises the reference towards `key` of every node above. -/
theorem bumpVersions_spec (version : Nat) (key : Key) :
    ∀ n (W : WorkingPatchSet), n ≤ 64 →
      (∀ m < n, ∃ working parent ref, W.getWorking (new key m) = some working ∧
        working.inner = .internal parent ∧ parent.childRef (nibble key m) = some ref) →
      ∃ W', TreeUpdater.bumpVersions version n (new key n) W = some W' ∧
        W'.rootVersion = W.rootVersion ∧ BumpedFrom W.getWorking W'.getWorking key n version := by
  intro n
  induction n with
  | zero =>
    intro W _ _
    exact ⟨W, rfl, rfl, fun q => by simp⟩
  | succ n ih =>
    intro W small path
    obtain ⟨working, parent, ref, found, internal, hasRef⟩ := path n (Nat.lt_succ_self n)
    obtain ⟨W₁, update, version₁, lookup₁⟩ :=
      updateChildRef_eq_some (f := fun ref => { ref with version := max ref.version version })
        found internal hasRef
    -- the nodes above `new key n` are untouched by the first bump
    have path₁ : ∀ m < n, ∃ working parent ref, W₁.getWorking (new key m) = some working ∧
        working.inner = .internal parent ∧ parent.childRef (nibble key m) = some ref := by
      intro m hm
      rw [lookup₁, if_neg (fun same => by
        have := congrArg Nibbles.nibbleCount same
        simp only [new_nibbleCount] at this
        omega)]
      exact path m (by omega)
    obtain ⟨W', run, version', lookup'⟩ := ih W₁ (by omega) path₁
    refine ⟨W', ?_, version'.trans version₁, fun q => ?_⟩
    · simp only [TreeUpdater.bumpVersions, splitLast_new key (show n < 64 by omega), update,
        Option.bind_eq_bind, Option.bind_some]
      exact run
    · rw [lookup', lookup₁]
      by_cases isN : q = new key n
      · have count : q.nibbleCount = n := by rw [isN]; rfl
        rw [if_neg (by omega), if_pos isN, if_pos ⟨by omega, by rw [count]; exact isN⟩, isN,
          found, Option.map_some, new_nibbleCount, bumpRef_of_internal version internal hasRef]
      · rw [if_neg isN]
        by_cases above : q.nibbleCount < n ∧ q = new key q.nibbleCount
        · rw [if_pos above, if_pos ⟨by omega, above.2⟩]
        · rw [if_neg above]
          have notAbove : ¬ (q.nibbleCount < n + 1 ∧ q = new key q.nibbleCount) := by
            rintro ⟨lt, onPath⟩
            rcases Nat.lt_succ_iff_lt_or_eq.mp lt with below | same
            · exact above ⟨below, onPath⟩
            · exact isN (by rw [onPath, same])
          rw [if_neg notAbove]

/-! ### Splitting a leaf -/

/-- The internal node that the loop of the leaf-mismatch case puts at depth `i`: a single child
towards `key` while the moved leaf's key agrees, the fork with both leaves where it differs. -/
def splitNode (version : Nat) (key movedKey : Key) (i : Nat) : InternalNode :=
  if nibble movedKey i = nibble key i then
    InternalNode.empty.insertChildRef (nibble key i) (ChildRef.internal version)
  else
    (InternalNode.empty.insertChildRef (nibble key i) (ChildRef.leaf version)).insertChildRef
      (nibble movedKey i) (ChildRef.leaf version)

/-- Two different keys with a common `n`-nibble prefix first differ at a nibble `d ≥ n`. -/
theorem exists_first_difference {key key' : Key} (different : key' ≠ key) {n : Nat}
    (same : new key' n = new key n) :
    ∃ d, n ≤ d ∧ d < 64 ∧ nibble key' d ≠ nibble key d ∧
      ∀ k, n ≤ k → k < d → nibble key' k = nibble key k := by
  have exists_difference : ∃ d, d < 64 ∧ nibble key' d ≠ nibble key d := by
    by_contra agree
    push Not at agree
    apply different
    have digits : ∀ i < 64, digit key' i = digit key i :=
      fun i hi => (nibble_eq_nibble_iff key' key hi).mp (agree i hi)
    have prefixes := (digits_eq_iff (le_refl 64)).mp digits
    simp only [prefixValue, Nat.sub_self, Nat.mul_zero, Nat.pow_zero, Nat.div_one] at prefixes
    exact BitVec.eq_of_toNat_eq prefixes
  classical
  let d := Nat.find exists_difference
  have first : ∀ k < d, k < 64 → nibble key' k = nibble key k := by
    intro k hk small
    by_contra differ
    exact Nat.find_min exists_difference hk ⟨small, differ⟩
  have prefixDigits := new_eq_new_iff.mp same
  refine ⟨d, ?_, (Nat.find_spec exists_difference).1, (Nat.find_spec exists_difference).2,
    fun k _ hk => first k hk (by have := (Nat.find_spec exists_difference).1; omega)⟩
  by_contra below
  push Not at below
  have small : d < 64 := (Nat.find_spec exists_difference).1
  exact (Nat.find_spec exists_difference).2
    ((nibble_eq_nibble_iff key' key small).mpr (prefixDigits d below small))

/-- The loop of the leaf-mismatch case from depth `i`: internal nodes along `key` down to the
first nibble `d` where the moved leaf's key differs, the fork there. -/
theorem splitLeaf_spec (version : Nat) (key : Key) (leaf : LeafNode) {d : Nat}
    (differs : nibble leaf.fullKey d ≠ nibble key d) :
    ∀ fuel i (W : WorkingPatchSet), i ≤ d → d < fuel + i →
      (∀ k, i ≤ k → k < d → nibble leaf.fullKey k = nibble key k) →
      ∃ W', TreeUpdater.splitLeaf version key leaf fuel i W = some (d, W') ∧
        W'.rootVersion = W.rootVersion ∧
        ∀ q, W'.getWorking q =
          if i ≤ q.nibbleCount ∧ q.nibbleCount ≤ d ∧ q = new key q.nibbleCount then
            some ⟨.internal (splitNode version key leaf.fullKey q.nibbleCount),
              (W.getWorking q).bind (·.prevVersion)⟩
          else W.getWorking q := by
  intro fuel
  induction fuel with
  | zero => intro i W below fuelEnough; omega
  | succ fuel ih =>
    intro i W below fuelEnough agree
    let W₁ := W.insert (new key i) (.internal (splitNode version key leaf.fullKey i))
    by_cases fork : i = d
    · -- the keys differ here: the fork
      subst fork
      refine ⟨W₁, ?_, rfl, fun q => ?_⟩
      · simp [TreeUpdater.splitLeaf, differs, splitNode, W₁]
      · rw [getWorking_insert]
        by_cases isI : q = new key i
        · have count : q.nibbleCount = i := by rw [isI]; rfl
          rw [if_pos isI, if_pos ⟨by omega, by omega, by rw [count]; exact isI⟩, count, isI]
        · rw [if_neg isI, if_neg (fun ⟨low, high, onPath⟩ => isI (by
            rw [onPath, show q.nibbleCount = i by omega]))]
    · -- the keys agree here: a single child, and on to the next nibble
      have same := agree i (le_refl i) (by omega)
      obtain ⟨W', run, version', lookup'⟩ := ih (i + 1) W₁ (by omega) (by omega)
        (fun k low high => agree k (by omega) high)
      refine ⟨W', ?_, version', fun q => ?_⟩
      · have single : splitNode version key leaf.fullKey i =
            InternalNode.empty.insertChildRef (nibble key i) (ChildRef.internal version) := by
          simp [splitNode, same]
        simp only [TreeUpdater.splitLeaf, same, ne_eq, not_true_eq_false, if_false, if_true]
        rw [← single]
        exact run
      · rw [lookup', getWorking_insert]
        by_cases isI : q = new key i
        · have count : q.nibbleCount = i := by rw [isI]; rfl
          rw [if_neg (by omega), if_pos isI, if_pos ⟨by omega, by omega, by rw [count]; exact isI⟩,
            count, isI]
        · rw [if_neg isI]
          by_cases deeper : i + 1 ≤ q.nibbleCount ∧ q.nibbleCount ≤ d ∧ q = new key q.nibbleCount
          · rw [if_pos deeper, if_pos ⟨by omega, deeper.2⟩]
          · rw [if_neg deeper, if_neg (fun ⟨low, high, onPath⟩ => by
              rcases Nat.lt_or_eq_of_le low with lt | eq
              · exact deeper ⟨lt, high, onPath⟩
              · exact isI (by rw [onPath, ← eq]))]

end ZksyncEra.MerkleTree
