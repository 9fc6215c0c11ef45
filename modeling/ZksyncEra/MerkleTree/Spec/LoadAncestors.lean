import ZksyncEra.MerkleTree.Spec.Insert
import ZksyncEra.Lib.Lists

/-!
`WorkingPatchSet::load_ancestors`: the working set after loading stands for the same contents,
and every key of the block gets the longest prefix of its path that the loading reached.

The loop loads one level per iteration. A level is the stored nodes under the references of the
working nodes above towards keys of the block (`LevelOk`); pushing it keeps the working-set
invariant, with the loaded nodes pending because a key of the block lies below them
(`WsInv.pushLevel`). The fold of an iteration settles the keys that cannot go deeper and requests
the children of the others (`requestKeys_spec`); at depth 65 every key is settled. A settled key's
path is loaded as far as the tree goes (`Settled`), which is what the insertions need.
-/

namespace ZksyncEra.MerkleTree

open Nibbles WorkingPatchSet

/-! ### Pushing a level -/

/-- Working nodes lie above the number of loaded levels. -/
theorem WorkingPatchSet.nibbleCount_lt_of_getWorking {W : WorkingPatchSet} {q : Nibbles}
    (present : (W.getWorking q).isSome) : q.nibbleCount < W.changesByNibbleCount.length := by
  by_contra beyond
  rw [getWorking, List.getElem?_eq_none (by omega), Option.bind_none] at present
  cases present

/-- A level loaded below depth `m` of the working set `W`: every entry is the stored node under
the reference of a working internal node of depth `m` towards a key with a pending position. -/
def LevelOk (store : NodeStore) (W : Nibbles → Option WorkingNode) (pending : Nibbles → Prop)
    (m : Nat) (level : List (NodeKey × Node)) : Prop :=
  ∀ key stored, (key, stored) ∈ level → store key = some stored ∧
    ∃ k : Key, ∃ working node ref, key.nibbles = new k (m + 1) ∧ pending (new k (m + 1)) ∧
      W (new k m) = some working ∧ working.inner = .internal node ∧
      node.childRef (nibble k m) = some ref ∧ key.version = ref.version

section PushLevel

variable {H : HashTree} {store : NodeStore} {contents : Contents} {version : Nat}
  {pending : Nibbles → Prop} {W : WorkingPatchSet} {level : List (NodeKey × Node)} {m : Nat}

/-- A loaded node is the one its entry names. -/
theorem lookup_loadedLevel_eq (ok : LevelOk store W.getWorking pending m level) {q : Nibbles}
    {w : WorkingNode} (count : q.nibbleCount = m + 1)
    (found : (loadedLevel level).lookup q.bytes = some w) :
    ∃ key stored, (key, stored) ∈ level ∧ key.nibbles = q ∧ w = ⟨stored, some key.version⟩ := by
  obtain ⟨key, stored, member, sameBytes, rfl⟩ := lookup_loadedLevel found
  obtain ⟨-, k, -, -, -, position, -⟩ := ok key stored member
  refine ⟨key, stored, member, nibbles_eq_iff.mpr ⟨?_, sameBytes⟩, rfl⟩
  rw [position, new_nibbleCount, count]

/-- Below the last loaded level, the child of a working internal node is a stored child. -/
theorem WsInv.storedChild_of_last (inv : WsInv H store contents W.getWorking version pending)
    (levels : W.changesByNibbleCount.length = m + 1) {k : Key} {working : WorkingNode}
    {node : InternalNode} {ref : ChildRef} (found : W.getWorking (new k m) = some working)
    (internal : working.inner = .internal node) (hasRef : node.childRef (nibble k m) = some ref) :
    m < 64 ∧ StoredChild H store contents (new k (m + 1)) ref := by
  have nodeOk := inv.nodeOk _ _ found
  rw [internal] at nodeOk
  have internalOk : InternalOk H store contents W.getWorking (new k m) node := nodeOk
  have depth : m < 64 := internalOk.depth_lt
  obtain ⟨child, pushed, childOk⟩ :=
    (slotOk_of_some hasRef).mp (internalOk.slots _ (nibble_lt k depth))
  rw [push_new k depth] at pushed
  cases pushed
  -- the child is below the loaded levels, so the reference is to the store
  have missing : W.getWorking (new k (m + 1)) = none := by
    cases present : W.getWorking (new k (m + 1)) with
    | none => rfl
    | some _ =>
      have := nibbleCount_lt_of_getWorking (by rw [present]; rfl : (W.getWorking _).isSome)
      rw [new_nibbleCount] at this
      omega
  exact ⟨depth, (childOk_of_stored missing).mp childOk⟩

/-- The stored node of an entry is the child its parent's reference names in the store. -/
theorem LevelOk.storedChild (inv : WsInv H store contents W.getWorking version pending)
    (levels : W.changesByNibbleCount.length = m + 1)
    (ok : LevelOk store W.getWorking pending m level) {key : NodeKey} {stored : Node}
    (member : (key, stored) ∈ level) :
    ∃ k : Key, ∃ working node ref, key.nibbles = new k (m + 1) ∧ pending (new k (m + 1)) ∧
      W.getWorking (new k m) = some working ∧ working.inner = .internal node ∧
      node.childRef (nibble k m) = some ref ∧ key.version = ref.version ∧ m < 64 ∧
      Holds H store contents key.nibbles stored ∧ stored.isLeaf = ref.isLeaf := by
  obtain ⟨inStore, k, working, node, ref, position, below, found, internal, hasRef, sameVersion⟩ :=
    ok key stored member
  obtain ⟨depth, childNode, inStore', isLeaf, -, holds⟩ :=
    inv.storedChild_of_last levels found internal hasRef
  have sameKey : (new k (m + 1)).withVersion ref.version = key := by
    rw [← position, ← sameVersion]
    rfl
  rw [sameKey, inStore] at inStore'
  cases inStore'
  exact ⟨k, working, node, ref, position, below, found, internal, hasRef, sameVersion, depth,
    position ▸ holds, isLeaf⟩

/-- The references of a stored internal node that holds point to stored nodes, so they are older
than every version newer than the store. -/
theorem Holds.refs_lt {q : Nibbles} {node : InternalNode}
    (holds : Holds H store contents q (.internal node))
    (fresh : ∀ key node, store key = some node → key.version < version) {j : UInt8}
    (hj : j.toNat < 16) {ref : ChildRef} (hasRef : node.childRef j = some ref) :
    ref.version < version := by
  cases holds with
  | internal _ _ _ _ stored =>
    obtain ⟨child, childNode, -, inStore, -⟩ := stored j hj ref hasRef
    exact fresh _ _ inStore

/-- Pushing a level of stored nodes keeps the working-set invariant: the loaded nodes hold, hang
from their parents by old references with a pending key below, and turn the stored children of
the level above into working ones of the same type. -/
theorem WsInv.pushLevel (inv : WsInv H store contents W.getWorking version pending)
    (levels : W.changesByNibbleCount.length = m + 1)
    (fresh : ∀ key node, store key = some node → key.version < version)
    (ok : LevelOk store W.getWorking pending m level) :
    WsInv H store contents (W.pushLevelFromDb level).getWorking version pending := by
  let W' := W.pushLevelFromDb level
  have lookup' : ∀ q, W'.getWorking q = if q.nibbleCount = m + 1 then
      (loadedLevel level).lookup q.bytes else W.getWorking q :=
    fun q => by rw [getWorking_pushLevelFromDb, levels]
  have old : ∀ q, q.nibbleCount ≠ m + 1 → W'.getWorking q = W.getWorking q :=
    fun q other => by rw [lookup', if_neg other]
  have loaded : ∀ q w, q.nibbleCount = m + 1 → W'.getWorking q = some w →
      ∃ key stored, (key, stored) ∈ level ∧ key.nibbles = q ∧ w = ⟨stored, some key.version⟩ :=
    fun q w count found => lookup_loadedLevel_eq ok count (by rwa [lookup', if_pos count] at found)
  have shallow : ∀ q, (W.getWorking q).isSome → q.nibbleCount < m + 1 :=
    fun q present => levels ▸ nibbleCount_lt_of_getWorking present
  -- nothing lies below the new level
  have deeper : ∀ q, m + 1 < q.nibbleCount → W'.getWorking q = none := by
    intro q deep
    rw [old q (by omega)]
    cases present : W.getWorking q with
    | none => rfl
    | some _ =>
      have := shallow q (by rw [present]; rfl)
      omega
  -- a child reference of an old node stays correct: a loaded child is the stored one
  have childOk' : ∀ q working node j ref child, W.getWorking q = some working →
      working.inner = .internal node → j.toNat < 16 → node.childRef j = some ref →
      q.push j = some child → ChildOk H store contents W.getWorking child ref →
      ChildOk H store contents W'.getWorking child ref := by
    intro q working node j ref child found internal hj hasRef pushed childOk
    by_cases atLevel : child.nibbleCount = m + 1
    · have missing : W.getWorking child = none := by
        cases present : W.getWorking child with
        | none => rfl
        | some _ =>
          have := shallow child (by rw [present]; rfl)
          omega
      cases loadedChild : W'.getWorking child with
      | none => exact (childOk_of_stored loadedChild).mpr ((childOk_of_stored missing).mp childOk)
      | some w =>
        obtain ⟨key, stored, member, rfl, rfl⟩ := loaded _ _ atLevel loadedChild
        obtain ⟨k, working', node', ref', position, -, found', internal', hasRef', -, depth, -,
          isLeaf⟩ := ok.storedChild inv levels member
        -- the entry's parent is `q`, so its reference is `ref`
        obtain ⟨key₀, under₀⟩ := inv.isPrefix found
        have qDepth : q.nibbleCount < 64 := by
          have := (push_nibbleCount pushed).1
          omega
        have split := splitLast_of_push under₀ qDepth hj pushed
        rw [position, splitLast_new k depth, Option.some.injEq, Prod.mk.injEq] at split
        obtain ⟨rfl, rfl⟩ := split
        rw [found] at found'
        cases found'
        rw [internal] at internal'
        cases internal'
        rw [hasRef] at hasRef'
        cases hasRef'
        exact (childOk_of_working loadedChild).mpr isLeaf
    · rwa [ChildOk, old child atLevel]
  refine ⟨fun empty => ?_, fun q w found => ?_, fun q w prev found hprev => ?_,
    fun q w node j ref found internal hj hasRef => ?_, fun q w found nonRoot => ?_⟩
  · -- an empty root: nothing was working, so nothing was loaded either
    obtain ⟨noNode, noKey⟩ := inv.rootEmpty (by rwa [old _ (by simp [Nibbles.EMPTY])] at empty)
    refine ⟨fun q => ?_, noKey⟩
    cases found : W'.getWorking q with
    | none => rfl
    | some w =>
      by_cases atLevel : q.nibbleCount = m + 1
      · obtain ⟨key, stored, member, rfl, rfl⟩ := loaded _ _ atLevel found
        obtain ⟨-, k, working, -, -, -, -, parentFound, -⟩ := ok key stored member
        rw [noNode] at parentFound
        cases parentFound
      · rw [old q atLevel, noNode] at found
        cases found
  · by_cases atLevel : q.nibbleCount = m + 1
    · -- a loaded node holds, and nothing is working below it
      obtain ⟨key, stored, member, rfl, rfl⟩ := loaded _ _ atLevel found
      obtain ⟨-, -, -, -, -, -, -, -, -, -, -, holds, -⟩ := ok.storedChild inv levels member
      exact holds.nodeOk fun j _ child pushed =>
        deeper child (by rw [(push_nibbleCount pushed).1]; omega)
    · rw [old q atLevel] at found
      have nodeOk := inv.nodeOk q w found
      cases inner : w.inner with
      | leaf leaf =>
        rw [inner] at nodeOk
        exact nodeOk
      | internal node =>
        rw [inner] at nodeOk
        have internalOk : InternalOk H store contents W.getWorking q node := nodeOk
        refine ⟨internalOk.isPrefix, internalOk.depth_lt, internalOk.nonempty, fun j hj => ?_⟩
        cases hasRef : node.childRef j with
        | none => exact (slotOk_of_none hasRef).mpr ((slotOk_of_none hasRef).mp (internalOk.slots j hj))
        | some ref =>
          obtain ⟨child, pushed, childOk⟩ := (slotOk_of_some hasRef).mp (internalOk.slots j hj)
          exact (slotOk_of_some hasRef).mpr
            ⟨child, pushed, childOk' q w node j ref child found inner hj hasRef pushed childOk⟩
  · by_cases atLevel : q.nibbleCount = m + 1
    · -- a loaded node keeps the version it is stored under
      obtain ⟨key, stored, member, rfl, rfl⟩ := loaded _ _ atLevel found
      cases hprev
      exact fresh _ _ (ok key stored member).1
    · rw [old q atLevel] at found
      exact inv.prevLt q w prev found hprev
  · by_cases atLevel : q.nibbleCount = m + 1
    · obtain ⟨key, stored, member, rfl, rfl⟩ := loaded _ _ atLevel found
      obtain ⟨-, -, -, -, -, -, -, -, -, -, -, holds, -⟩ := ok.storedChild inv levels member
      cases internal
      exact le_of_lt (holds.refs_lt fresh hj hasRef)
    · rw [old q atLevel] at found
      exact inv.refsLe q w node j ref found internal hj hasRef
  · by_cases atLevel : q.nibbleCount = m + 1
    · -- a loaded node hangs from its parent by an old reference, with a pending key below
      obtain ⟨key, stored, member, rfl, rfl⟩ := loaded _ _ atLevel found
      obtain ⟨k, working, node, ref, position, below, parentFound, internal, hasRef, -, depth, -⟩ :=
        ok.storedChild inv levels member
      rw [position]
      exact ⟨new k m, nibble k m, working, node, ref, splitLast_new k depth,
        by rw [old _ (by rw [new_nibbleCount]; omega)]; exact parentFound, internal, hasRef,
        Or.inr below⟩
    · rw [old q atLevel] at found
      obtain ⟨parent, j, parentWorking, parentNode, ref, split, parentFound, internal, hasRef,
        fresh'⟩ := inv.parent q w found nonRoot
      have parentCount : parent.nibbleCount ≠ m + 1 := by
        obtain ⟨key₀, under₀⟩ := inv.isPrefix found
        have := shallow q (by rw [found]; rfl)
        have := inv.depth_le found
        obtain ⟨n, count⟩ := Nat.exists_eq_succ_of_ne_zero nonRoot
        rw [splitLast_of_under under₀ count (by omega), Option.some.injEq, Prod.mk.injEq] at split
        rw [← split.1, new_nibbleCount]
        omega
      exact ⟨parent, j, parentWorking, parentNode, ref, split,
        by rw [old _ parentCount]; exact parentFound, internal, hasRef, fresh'⟩

/-- Pushing a level keeps the working nodes. -/
theorem getWorking_pushLevelFromDb_of_isSome {W : WorkingPatchSet} (level : List (NodeKey × Node))
    {q : Nibbles} (present : (W.getWorking q).isSome) :
    (W.pushLevelFromDb level).getWorking q = W.getWorking q := by
  rw [getWorking_pushLevelFromDb, if_neg (Nat.ne_of_lt (nibbleCount_lt_of_getWorking present))]

/-- A key whose path is loaded as far as the references go keeps it so when a level is pushed:
no loaded node lies on its path, since its parent would refer to a child that is not loaded. -/
theorem PathLoaded.pushLevel (inv : WsInv H store contents W.getWorking version pending)
    {key : Key} (loaded : PathLoaded W.getWorking key)
    (levels : W.changesByNibbleCount.length = m + 1)
    (ok : LevelOk store W.getWorking pending m level) :
    PathLoaded (W.pushLevelFromDb level).getWorking key := by
  intro n working node ref found internal hasRef
  by_cases atLevel : n = m + 1
  · exfalso
    subst atLevel
    rw [getWorking_pushLevelFromDb, levels, if_pos (new_nibbleCount _ _)] at found
    obtain ⟨key', stored, member, sameBytes, -⟩ := lookup_loadedLevel found
    obtain ⟨k, parentWorking, parentNode, parentRef, position, -, parentFound, parentInternal,
      parentHasRef, -, depth, -⟩ := ok.storedChild inv levels member
    have samePosition : new k (m + 1) = new key (m + 1) := by
      rw [← position]
      exact nibbles_eq_iff.mpr ⟨by rw [position, new_nibbleCount, new_nibbleCount], sameBytes⟩
    obtain ⟨sameParent, sameDigit⟩ := (new_succ_eq_new_succ_iff depth).mp samePosition
    have sameNibble : nibble k m = nibble key m := (nibble_eq_nibble_iff k key depth).mpr sameDigit
    -- the parent is on the path of `key`, so its child towards `key` was loaded already
    have child := loaded m parentWorking parentNode parentRef (by rw [← sameParent]; exact parentFound)
      parentInternal (by rw [← sameNibble]; exact parentHasRef)
    have := nibbleCount_lt_of_getWorking child
    rw [new_nibbleCount] at this
    omega
  · rw [getWorking_pushLevelFromDb, levels, if_neg (by rw [new_nibbleCount]; exact atLevel)] at found
    have next := loaded n working node ref found internal hasRef
    rw [getWorking_pushLevelFromDb_of_isSome level next]
    exact next

end PushLevel

/-! ### The fold of one iteration -/

theorem WorkingPatchSet.childRef_eq_some_iff {W : WorkingPatchSet} {q : Nibbles} {j : UInt8}
    {ref : ChildRef} :
    W.childRef q j = some ref ↔ ∃ working node, W.getWorking q = some working ∧
      working.inner = .internal node ∧ node.childRef j = some ref := by
  unfold WorkingPatchSet.childRef WorkingPatchSet.get
  cases found : W.getWorking q with
  | none => simp
  | some working =>
    cases inner : working.inner with
    | leaf leaf => simp [inner]
    | internal node => simp [inner]

/-- Positions with a key of the block below. -/
def Below (keys : List (Nat × Key)) (q : Nibbles) : Prop :=
  ∃ idx key, (idx, key) ∈ keys ∧ Under key q

/-- The sorted keys with their indices: an index names one key, and the indices are those below
the number of keys. -/
structure KeysOk (keys : List (Nat × Key)) : Prop where
  unique : ∀ idx key key', (idx, key) ∈ keys → (idx, key') ∈ keys → key = key'
  lt : ∀ idx key, (idx, key) ∈ keys → idx < keys.length
  cover : ∀ idx, idx < keys.length → ∃ key, (idx, key) ∈ keys

/-- The longest prefix `p` given to `key`: a position of its path that is working (or the root
position) and has no reference further towards the key, with the path of the key loaded as far as
the references go. -/
structure Settled (W : Nibbles → Option WorkingNode) (key : Key) (p : Nibbles) : Prop where
  under : Under key p
  present : (W p).isSome ∨ p.nibbleCount = 0
  loaded : PathLoaded W key
  stops : ∀ working node, W p = some working → working.inner = .internal node →
    node.childRef (nibble key p.nibbleCount) = none

/-- The state of the fold of one iteration: the longest prefixes, the previous nibbles and the
requested node keys. -/
abbrev LoadState := List (Option Nibbles) × Option Nibbles × List (NodeKey × Bool)

/-- The fold of the iteration at depth `c` after the keys in `done`: settled keys are settled, an
unsettled key is loaded down to depth `c - 1` and, once passed, has its child requested; every
request is for the child of a working internal node, through its reference. -/
structure StageInv (W : Nibbles → Option WorkingNode) (keys : List (Nat × Key)) (c : Nat)
    (done : Nat × Key → Prop) (state : LoadState) : Prop where
  length : state.1.length = keys.length
  settled : ∀ idx key p, (idx, key) ∈ keys → state.1[idx]? = some (some p) → Settled W key p
  reaching : ∀ idx key, (idx, key) ∈ keys → state.1[idx]? = some none →
    ∀ m < c, (W (new key m)).isSome
  requested : ∀ idx key, (idx, key) ∈ keys → done (idx, key) → state.1[idx]? = some none →
    ∃ request ∈ state.2.2, request.1.nibbles = new key c
  requests : ∀ request ∈ state.2.2, ∃ idx key, (idx, key) ∈ keys ∧ ∃ m working node ref,
    c = m + 1 ∧ request.1 = (new key c).withVersion ref.version ∧ W (new key m) = some working ∧
    working.inner = .internal node ∧ node.childRef (nibble key m) = some ref
  prev : ∀ p, state.2.1 = some p → p.nibbleCount < c ∨ ∃ request ∈ state.2.2, request.1.nibbles = p

section Stage

variable {W : Nibbles → Option WorkingNode} {keys : List (Nat × Key)} {c : Nat}
  {done : Nat × Key → Prop}

/-- Fewer passed keys: the invariant only asks for requests of passed keys. -/
theorem StageInv.anti {done' : Nat × Key → Prop} {state : LoadState}
    (stage : StageInv W keys c done state) (fewer : ∀ x, done' x → done x) :
    StageInv W keys c done' state :=
  ⟨stage.length, stage.settled, stage.reaching,
    fun idx key member passed => stage.requested idx key member (fewer _ passed), stage.requests,
    stage.prev⟩

/-- Settling the prefix of an unsettled key. -/
theorem StageInv.settle {prefixes : List (Option Nibbles)} {prev : Option Nibbles}
    {requests : List (NodeKey × Bool)} (keysOk : KeysOk keys)
    (stage : StageInv W keys c done (prefixes, prev, requests)) {idx : Nat} {key : Key}
    (member : (idx, key) ∈ keys) {p : Nibbles} (settled : Settled W key p) :
    StageInv W keys c (fun x => done x ∨ x = (idx, key))
      (prefixes.set idx (some p), prev, requests) := by
  -- an entry of the prefixes other than `idx` is unchanged
  have other : ∀ i, i ≠ idx → (prefixes.set idx (some p))[i]? = prefixes[i]? :=
    fun i ne => List.getElem?_set_ne (Ne.symm ne)
  have atIdx : (prefixes.set idx (some p))[idx]? = some (some p) := by
    rw [List.getElem?_set_self]
    rw [stage.length]
    exact keysOk.lt idx key member
  refine ⟨by rw [List.length_set]; exact stage.length, fun i k p' member' found => ?_,
    fun i k member' found => ?_, fun i k member' isDone found => ?_, stage.requests, stage.prev⟩
  · by_cases same : i = idx
    · subst same
      rw [atIdx, Option.some.injEq, Option.some.injEq] at found
      subst found
      rwa [keysOk.unique i k key member' member]
    · rw [other i same] at found
      exact stage.settled i k p' member' found
  · by_cases same : i = idx
    · subst same
      rw [atIdx] at found
      cases found
    · rw [other i same] at found
      exact stage.reaching i k member' found
  · by_cases same : i = idx
    · subst same
      rw [atIdx] at found
      cases found
    · rw [other i same] at found
      rcases isDone with before | now
      · exact stage.requested i k member' before found
      · cases now
        exact absurd rfl same

/-- Passing a key that is settled, or whose child is requested already. -/
theorem StageInv.pass {state : LoadState} (stage : StageInv W keys c done state) {idx : Nat}
    {key : Key} (requested : state.1[idx]? = some none →
      ∃ request ∈ state.2.2, request.1.nibbles = new key c) :
    StageInv W keys c (fun x => done x ∨ x = (idx, key)) state := by
  refine ⟨stage.length, stage.settled, stage.reaching, fun i k member isDone found => ?_,
    stage.requests, stage.prev⟩
  rcases isDone with before | now
  · exact stage.requested i k member before found
  · cases now
    exact requested found

end Stage

section Request

variable {H : HashTree} {store : NodeStore} {contents : Contents} {version : Nat}
  {pending : Nibbles → Prop} {W : WorkingPatchSet} {keys : List (Nat × Key)} {c : Nat}
  {done : Nat × Key → Prop}

/-- One step of the fold: the key is passed if settled, settled if it cannot go deeper, and
otherwise its child at depth `c` is requested (once for a run of equal nibbles). -/
theorem requestKey_spec (inv : WsInv H store contents W.getWorking version pending)
    (keysOk : KeysOk keys) (levels : W.changesByNibbleCount.length = c) (positive : 0 < c)
    {state : LoadState} (stage : StageInv W.getWorking keys c done state) {idx : Nat} {key : Key}
    (member : (idx, key) ∈ keys) :
    ∃ state', W.requestKey c state (idx, key) = some state' ∧
      StageInv W.getWorking keys c (fun x => done x ∨ x = (idx, key)) state' := by
  obtain ⟨prefixes, prev, requests⟩ := state
  have hidx : idx < prefixes.length := stage.length ▸ keysOk.lt idx key member
  obtain ⟨entry, hp⟩ : ∃ entry, prefixes[idx]? = some entry :=
    ⟨_, List.getElem?_eq_getElem hidx⟩
  cases entry with
  | some p =>
    -- already settled
    refine ⟨_, by simp [WorkingPatchSet.requestKey, hp], stage.pass fun found => ?_⟩
    rw [hp] at found
    cases found
  | none =>
    have reaching := stage.reaching idx key member hp
    by_cases final : c > 2 * KEY_SIZE
    · -- below the last level: the longest prefix is the whole key
      refine ⟨_, by simp [WorkingPatchSet.requestKey, hp, final],
        stage.settle keysOk member ⟨under_new key (2 * KEY_SIZE),
          Or.inl (reaching (2 * KEY_SIZE) final), fun n working node ref found internal _ => ?_,
          fun working node found internal => ?_⟩⟩
      · have nodeOk := inv.nodeOk _ _ found
        rw [internal] at nodeOk
        have depth : n < 64 := InternalOk.depth_lt nodeOk
        exact reaching _ (by unfold KEY_SIZE at final; omega)
      · -- no internal node lies on the last level
        have nodeOk := inv.nodeOk _ _ found
        rw [internal] at nodeOk
        have depth := InternalOk.depth_lt nodeOk
        unfold KEY_SIZE at depth
        simp at depth
    obtain ⟨m, rfl⟩ : ∃ m, c = m + 1 := ⟨c - 1, by omega⟩
    have depth : m < 64 := by unfold KEY_SIZE at final; omega
    cases hasRef : W.childRef (new key m) (nibble key m) with
    | none =>
      -- no child towards the key: the longest prefix is its parent
      refine ⟨_, by simp [WorkingPatchSet.requestKey, hp, final, splitLast_new key depth, hasRef],
        stage.settle keysOk member ⟨under_new key _, Or.inl (reaching m (Nat.lt_succ_self m)),
          fun n working node ref found internal hasRef' => ?_, fun working node found internal => ?_⟩⟩
      · rcases Nat.lt_trichotomy n m with above | rfl | below
        · exact reaching (n + 1) (by omega)
        · exfalso
          have := WorkingPatchSet.childRef_eq_some_iff.mpr ⟨working, node, found, internal, hasRef'⟩
          rw [hasRef] at this
          cases this
        · exfalso
          have := nibbleCount_lt_of_getWorking (by rw [found]; rfl : (W.getWorking (new key n)).isSome)
          rw [levels, new_nibbleCount] at this
          omega
      · rw [new_nibbleCount]
        cases hasRef' : node.childRef (nibble key m) with
        | none => rfl
        | some ref =>
          have := WorkingPatchSet.childRef_eq_some_iff.mpr ⟨working, node, found, internal, hasRef'⟩
          rw [hasRef] at this
          cases this
    | some ref =>
      obtain ⟨working, node, found, internal, hasRef'⟩ :=
        WorkingPatchSet.childRef_eq_some_iff.mp hasRef
      by_cases duplicate : prev = some (new key (m + 1))
      · -- the same nibbles as the previous key: requested already
        refine ⟨_, by simp [WorkingPatchSet.requestKey, hp, final, splitLast_new key depth, hasRef,
          duplicate], stage.pass fun _ => ?_⟩
        rcases stage.prev _ duplicate with shallower | requested
        · rw [new_nibbleCount] at shallower
          omega
        · exact requested
      · refine ⟨(prefixes, some (new key (m + 1)), requests ++
          [((new key (m + 1)).withVersion ref.version, ref.isLeaf)]),
          by simp [WorkingPatchSet.requestKey, hp, final, splitLast_new key depth, hasRef,
            duplicate], ?_⟩
        have newRequest : ∀ request ∈ requests ++ [((new key (m + 1)).withVersion ref.version,
            ref.isLeaf)], request ∈ requests ∨
              request = ((new key (m + 1)).withVersion ref.version, ref.isLeaf) := by
          intro request member'
          simpa using member'
        refine ⟨stage.length, stage.settled, stage.reaching, fun i k member' isDone found' => ?_,
          fun request member' => ?_, fun p isPrev => ?_⟩
        · rcases isDone with before | now
          · obtain ⟨request, old, nibbles⟩ := stage.requested i k member' before found'
            exact ⟨request, List.mem_append_left _ old, nibbles⟩
          · cases now
            exact ⟨_, List.mem_append_right _ (List.mem_singleton_self _), rfl⟩
        · rcases newRequest request member' with old | rfl
          · exact stage.requests request old
          · exact ⟨idx, key, member, m, working, node, ref, rfl, rfl, found, internal, hasRef'⟩
        · cases isPrev
          exact Or.inr ⟨_, List.mem_append_right _ (List.mem_singleton_self _), rfl⟩

/-- The fold over the keys from `rest` on passes each of them. -/
theorem foldlM_requestKey_spec (inv : WsInv H store contents W.getWorking version pending)
    (keysOk : KeysOk keys) (levels : W.changesByNibbleCount.length = c) (positive : 0 < c)
    (rest : List (Nat × Key)) :
    ∀ {done : Nat × Key → Prop} {state : LoadState}, (∀ x ∈ rest, x ∈ keys) →
      StageInv W.getWorking keys c done state →
      ∃ state', rest.foldlM (W.requestKey c) state = some state' ∧
        StageInv W.getWorking keys c (fun x => done x ∨ x ∈ rest) state' := by
  induction rest with
  | nil =>
    intro done state _ stage
    exact ⟨state, rfl, stage.anti fun x passed => passed.resolve_right (by simp)⟩
  | cons head rest ih =>
    obtain ⟨idx, key⟩ := head
    intro done state inKeys stage
    obtain ⟨state₁, step, stage₁⟩ :=
      requestKey_spec inv keysOk levels positive stage (inKeys _ List.mem_cons_self)
    obtain ⟨state', fold, stage'⟩ :=
      ih (fun x member => inKeys x (List.mem_cons_of_mem _ member)) stage₁
    refine ⟨state', by simp [step, fold], stage'.anti fun x passed => ?_⟩
    rcases passed with before | member
    · exact Or.inl (Or.inl before)
    · rcases List.mem_cons.mp member with now | later
      · exact Or.inl (Or.inr now)
      · exact Or.inr later

/-- The fold of one iteration passes every key. -/
theorem requestKeys_spec (inv : WsInv H store contents W.getWorking version pending)
    (keysOk : KeysOk keys) (levels : W.changesByNibbleCount.length = c) (positive : 0 < c)
    {prefixes : List (Option Nibbles)} {prev : Option Nibbles}
    (stage : StageInv W.getWorking keys c (fun _ => False) (prefixes, prev, [])) :
    ∃ state, W.requestKeys c keys prefixes prev = some state ∧
      StageInv W.getWorking keys c (· ∈ keys) state := by
  obtain ⟨state, fold, stage'⟩ :=
    foldlM_requestKey_spec inv keysOk levels positive keys (fun _ member => member) stage
  exact ⟨state, fold, stage'.anti fun _ member => Or.inr member⟩

/-- Past the last level nothing is requested: a request hangs from a working internal node, and
those lie above depth 64. -/
theorem StageInv.requests_eq_nil (inv : WsInv H store contents W.getWorking version pending)
    {state : LoadState} (stage : StageInv W.getWorking keys c done state)
    (deep : c > 2 * KEY_SIZE) : state.2.2 = [] := by
  cases requests : state.2.2 with
  | nil => rfl
  | cons request rest =>
    obtain ⟨idx, key, -, m, working, node, ref, rfl, -, found, internal, -⟩ :=
      stage.requests request (by rw [requests]; exact List.mem_cons_self)
    have nodeOk := inv.nodeOk _ _ found
    rw [internal] at nodeOk
    have depth : m < 64 := InternalOk.depth_lt nodeOk
    unfold KEY_SIZE at deep
    omega

/-- The requested nodes are stored, so the level read from the database is complete: one node for
each request, each the child that a working internal node refers to. -/
theorem exists_level (inv : WsInv H store contents W.getWorking version pending) {m : Nat}
    (levels : W.changesByNibbleCount.length = m + 1) {state : LoadState}
    (stage : StageInv W.getWorking keys (m + 1) done state) :
    ∃ level, (state.2.2.zip (state.2.2.map fun request => store request.1)).mapM
        (fun ((key, _), node) => node.map (key, ·)) = some level ∧
      LevelOk store W.getWorking (Below keys) m level ∧
      ∀ request ∈ state.2.2, ∃ stored, (request.1, stored) ∈ level := by
  have entryOk : ∀ request ∈ state.2.2, ∃ stored, store request.1 = some stored ∧
      ∃ k : Key, ∃ working node ref, request.1.nibbles = new k (m + 1) ∧
        Below keys (new k (m + 1)) ∧ W.getWorking (new k m) = some working ∧
        working.inner = .internal node ∧ node.childRef (nibble k m) = some ref ∧
        request.1.version = ref.version := by
    intro request member
    obtain ⟨idx, k, inKeys, m', working, node, ref, same, requestKey, found, internal, hasRef⟩ :=
      stage.requests request member
    cases Nat.succ.inj same
    obtain ⟨-, childNode, inStore, -⟩ := inv.storedChild_of_last levels found internal hasRef
    refine ⟨childNode, requestKey ▸ inStore, k, working, node, ref, by rw [requestKey]; rfl,
      ⟨idx, k, inKeys, under_new k _⟩, found, internal, hasRef, by rw [requestKey]; rfl⟩
  have zipped : state.2.2.zip (state.2.2.map fun request => store request.1) =
      state.2.2.map fun request => (request, store request.1) := by
    simpa using List.zip_map' (f := id) (g := fun request => store request.1) (l := state.2.2)
  have allSome : ∀ x ∈ state.2.2.map (fun request => (request, store request.1)),
      ((fun ((key, _), node) => node.map (key, ·)) x : Option (NodeKey × Node)).isSome := by
    intro x member
    obtain ⟨request, inRequests, rfl⟩ := List.mem_map.mp member
    obtain ⟨stored, inStore, -⟩ := entryOk request inRequests
    simp [inStore]
  obtain ⟨level, mapped, related⟩ := List.mapM_eq_some_of_isSome allSome
  rw [List.forall₂_map_left_iff] at related
  refine ⟨level, by rw [zipped]; exact mapped, fun key stored member => ?_, fun request member => ?_⟩
  · obtain ⟨request, inRequests, loaded⟩ := List.forall₂_exists_of_mem_right related member
    obtain ⟨stored', inStore, rest⟩ := entryOk request inRequests
    simp only [inStore, Option.map_some, Option.some.injEq, Prod.mk.injEq] at loaded
    obtain ⟨rfl, rfl⟩ := loaded
    exact ⟨inStore, rest⟩
  · obtain ⟨entry, inLevel, loaded⟩ := List.forall₂_exists_of_mem_left related member
    obtain ⟨stored, inStore, -⟩ := entryOk request member
    simp only [inStore, Option.map_some, Option.some.injEq] at loaded
    exact ⟨stored, loaded ▸ inLevel⟩

/-- Loading the requested level starts the next iteration: a settled key stays settled, and an
unsettled key reaches one level further, through its requested child. -/
theorem StageInv.pushLevel (inv : WsInv H store contents W.getWorking version pending) {m : Nat}
    (levels : W.changesByNibbleCount.length = m + 1) {level : List (NodeKey × Node)}
    (ok : LevelOk store W.getWorking pending m level) {prefixes : List (Option Nibbles)}
    {prev : Option Nibbles} {requests : List (NodeKey × Bool)}
    (stage : StageInv W.getWorking keys (m + 1) (· ∈ keys) (prefixes, prev, requests))
    (complete : ∀ request ∈ requests, ∃ stored, (request.1, stored) ∈ level) :
    StageInv (W.pushLevelFromDb level).getWorking keys (m + 2) (fun _ => False)
      (prefixes, prev, []) := by
  have keeps : ∀ q, (W.getWorking q).isSome → ((W.pushLevelFromDb level).getWorking q).isSome :=
    fun q present => by rw [getWorking_pushLevelFromDb_of_isSome level present]; exact present
  refine ⟨stage.length, fun idx key p member found => ?_, fun idx key member found n below => ?_,
    fun _ _ _ never _ => never.elim, (fun _ none' => nomatch none'), fun p isPrev => ?_⟩
  · obtain ⟨under, present, loaded, stops⟩ := stage.settled idx key p member found
    refine ⟨under, present.imp_left (keeps p), loaded.pushLevel inv levels ok,
      fun working node found' internal => ?_⟩
    -- the prefix is working already, or it is the root position, on a level below the new one
    have unchanged : (W.pushLevelFromDb level).getWorking p = W.getWorking p := by
      rcases present with working' | root
      · exact getWorking_pushLevelFromDb_of_isSome level working'
      · rw [getWorking_pushLevelFromDb, if_neg (by omega)]
    rw [unchanged] at found'
    exact stops working node found' internal
  · rcases Nat.lt_succ_iff_lt_or_eq.mp below with above | rfl
    · exact keeps _ (stage.reaching idx key member found n above)
    · -- the requested child of the key is in the loaded level
      obtain ⟨request, inRequests, nibblesEq⟩ := stage.requested idx key member member found
      obtain ⟨stored, inLevel⟩ := complete request inRequests
      rw [getWorking_pushLevelFromDb, if_pos (by rw [levels, new_nibbleCount]), ← nibblesEq]
      exact lookup_loadedLevel_isSome inLevel
  · rcases stage.prev p isPrev with shallower | ⟨request, inRequests, nibblesEq⟩
    · exact Or.inl (by omega)
    · obtain ⟨_, k, _, _, _, _, ref, _, requestKey, -⟩ := stage.requests request inRequests
      have count : p.nibbleCount = m + 1 := by
        rw [← nibblesEq, requestKey]
        exact new_nibbleCount k _
      exact Or.inl (by omega)

end Request

/-! ### The sorted keys and the working set of a new version -/

theorem mem_keys_sortedKeys_new {ks : List Key} {idx : Nat} {key : Key} :
    (idx, key) ∈ (SortedKeys.new ks).keys ↔ ∃ h : idx < ks.length, ks[idx] = key := by
  rw [SortedKeys.new, List.mem_mergeSort]
  simp only [List.mem_iff_getElem, List.getElem_zip, List.getElem_range, List.length_zip,
    List.length_range, Nat.min_self, Prod.mk.injEq]
  constructor
  · rintro ⟨j, hj, rfl, rfl⟩
    exact ⟨hj, rfl⟩
  · rintro ⟨h, rfl⟩
    exact ⟨idx, h, rfl, rfl⟩

@[simp] theorem length_keys_sortedKeys_new (ks : List Key) :
    (SortedKeys.new ks).keys.length = ks.length := by
  simp [SortedKeys.new]

theorem keysOk_sortedKeys_new (ks : List Key) : KeysOk (SortedKeys.new ks).keys where
  unique idx key key' member member' := by
    obtain ⟨_, rfl⟩ := mem_keys_sortedKeys_new.mp member
    obtain ⟨_, rfl⟩ := mem_keys_sortedKeys_new.mp member'
    rfl
  lt idx key member := by
    obtain ⟨h, -⟩ := mem_keys_sortedKeys_new.mp member
    simpa using h
  cover idx h := ⟨_, mem_keys_sortedKeys_new.mpr ⟨by simpa using h, rfl⟩⟩

section Start

variable {H : HashTree} {store : NodeStore} {contents : Contents} {version : Nat}
  {pending : Nibbles → Prop}

/-- The working set of a new version holds only the root of the last one, and stands for the
contents of that root; any key may be pending. -/
theorem WsInv.new {root : Root} (rootHolds : RootHolds H store contents root)
    (fresh : ∀ key node, store key = some node → key.version < version) :
    WsInv H store contents (WorkingPatchSet.new version root).getWorking version pending := by
  cases root with
  | empty =>
    refine ⟨fun _ => ⟨getWorking_new_empty version, rootHolds⟩, ?_, ?_, ?_, ?_⟩ <;>
      · intro q working
        simp [getWorking_new_empty]
  | filled leafCount positive node =>
    have atRoot : ∀ q working, (WorkingPatchSet.new version
        (.filled leafCount positive node)).getWorking q = some working →
        q = Nibbles.EMPTY ∧ working =
          ⟨node, if 1 ≤ version then some (version - 1) else none⟩ := by
      intro q working found
      rw [getWorking_new_filled] at found
      split at found
      · exact ⟨by assumption, (Option.some.inj found).symm⟩
      · cases found
    -- the children of the root are not working
    have noChild : ∀ j : UInt8, j.toNat < 16 → ∀ child, Nibbles.EMPTY.push j = some child →
        (WorkingPatchSet.new version (.filled leafCount positive node)).getWorking child =
          none := by
      intro j _ child pushed
      have count := (push_nibbleCount pushed).1
      rw [getWorking_new_filled, if_neg fun root => by rw [root] at count; cases count]
    have rootHolds : Holds H store contents Nibbles.EMPTY node := rootHolds
    refine ⟨fun missing => ?_, fun q working found => ?_,
      fun q working prev found isPrev => ?_, fun q working parent j ref found internal hj hasRef => ?_,
      fun q working found nonRoot => ?_⟩
    · rw [getWorking_new_filled, if_pos rfl] at missing
      cases missing
    · obtain ⟨rfl, rfl⟩ := atRoot q working found
      exact rootHolds.nodeOk noChild
    · obtain ⟨rfl, rfl⟩ := atRoot q working found
      dsimp only at isPrev
      split at isPrev
      · cases isPrev
        omega
      · cases isPrev
    · obtain ⟨rfl, rfl⟩ := atRoot q working found
      dsimp only at internal
      subst internal
      exact le_of_lt (rootHolds.refs_lt fresh hj hasRef)
    · obtain ⟨rfl, -⟩ := atRoot q working found
      exact absurd rfl nonRoot

end Start

/-! ### Loaded nodes are stored nodes -/

/-- The working nodes are those of storage, unchanged: each holds for the contents at its
position, and each below the root is a stored node. -/
def Faithful (H : HashTree) (store : NodeStore) (contents : Contents)
    (W : Nibbles → Option WorkingNode) : Prop :=
  ∀ q working, W q = some working → Holds H store contents q working.inner ∧
    (q.nibbleCount ≠ 0 → ∃ key, store key = some working.inner)

section Faithful

variable {H : HashTree} {store : NodeStore} {contents : Contents} {pending : Nibbles → Prop}
  {W : WorkingPatchSet} {level : List (NodeKey × Node)} {m : Nat}

/-- The working set of a version holds only its root. -/
theorem faithful_new {root : Root} (rootHolds : RootHolds H store contents root) (version : Nat) :
    Faithful H store contents (WorkingPatchSet.new version root).getWorking := by
  intro q working found
  cases root with
  | empty =>
    rw [getWorking_new_empty] at found
    cases found
  | filled leafCount positive node =>
    rw [getWorking_new_filled] at found
    split at found
    · rename_i root
      subst root
      cases found
      exact ⟨rootHolds, fun nonRoot => absurd rfl nonRoot⟩
    · cases found

/-- A loaded level adds the stored children that the working internal nodes above refer to, and
those hold below their parents. -/
theorem Faithful.pushLevel (faithful : Faithful H store contents W.getWorking)
    (levels : W.changesByNibbleCount.length = m + 1) (ok : LevelOk store W.getWorking pending m level) :
    Faithful H store contents (W.pushLevelFromDb level).getWorking := by
  intro q working found
  rw [getWorking_pushLevelFromDb] at found
  split at found
  · rename_i count
    rw [levels] at count
    obtain ⟨key, stored, member, position, rfl⟩ := lookup_loadedLevel_eq ok count found
    obtain ⟨inStore, k, parentWorking, node, ref, nibbles, -, parentFound, internal, hasRef,
      version⟩ := ok key stored member
    have parentHolds := (faithful _ _ parentFound).1
    rw [internal] at parentHolds
    cases parentHolds with
    | internal _ depth_lt _ _ _ children =>
      have hm : m < 64 := by simpa using depth_lt
      -- the loaded node is the stored child under the parent's reference towards `k`
      have sameKey : (new k (m + 1)).withVersion ref.version = key := by
        rw [← nibbles, ← version]
        rfl
      refine ⟨?_, fun _ => ⟨key, inStore⟩⟩
      rw [← position, nibbles]
      exact children _ (nibble_lt k hm) ref hasRef _ _ (push_new k hm) (by rw [sameKey]; exact inStore)
  · exact faithful q working found

end Faithful

/-! ### The loop -/

/-- The state of `load_ancestors` before the iteration at depth `c`: a working set for the contents
with the keys of the block pending and the levels above `c` loaded from storage, and a fold state
with no request. -/
structure LoadInv (H : HashTree) (store : NodeStore) (contents : Contents) (version : Nat)
    (keys : List (Nat × Key)) (W : WorkingPatchSet) (c : Nat) (prefixes : List (Option Nibbles))
    (prev : Option Nibbles) : Prop where
  ws : WsInv H store contents W.getWorking version (Below keys)
  levels : W.changesByNibbleCount.length = c
  positive : 0 < c
  stage : StageInv W.getWorking keys c (fun _ => False) (prefixes, prev, [])
  faithful : Faithful H store contents W.getWorking

/-- What `load_ancestors` gives: a working set for the contents with the keys of the block
pending, loaded from storage, and a settled longest prefix for each key, in the order of the
block. -/
structure Loaded (H : HashTree) (store : NodeStore) (contents : Contents) (version : Nat)
    (keys : List (Nat × Key)) (W : WorkingPatchSet) (ps : List Nibbles) : Prop where
  ws : WsInv H store contents W.getWorking version (Below keys)
  length : ps.length = keys.length
  settled : ∀ idx key, (idx, key) ∈ keys → ∃ p, ps[idx]? = some p ∧ Settled W.getWorking key p
  faithful : Faithful H store contents W.getWorking

section Loop

variable {H : HashTree} {store : NodeStore} {contents : Contents} {version : Nat}
  {keys : List (Nat × Key)} {W : WorkingPatchSet} {c : Nat}

/-- Once nothing is requested every key is settled, and the prefixes are collected. -/
theorem StageInv.mapM_prefixes (inv : WsInv H store contents W.getWorking version (Below keys))
    (keysOk : KeysOk keys) {prefixes : List (Option Nibbles)} {prev : Option Nibbles}
    (stage : StageInv W.getWorking keys c (· ∈ keys) (prefixes, prev, []))
    (faithful : Faithful H store contents W.getWorking) :
    ∃ ps, prefixes.mapM id = some ps ∧ Loaded H store contents version keys W ps := by
  have allSome : ∀ x ∈ prefixes, (id x).isSome := by
    intro x member
    obtain ⟨i, hi, rfl⟩ := List.getElem_of_mem member
    obtain ⟨key, inKeys⟩ := keysOk.cover i (stage.length ▸ hi)
    cases entry : prefixes[i] with
    | some p => rfl
    | none =>
      -- an unsettled key has a request, and there is none
      obtain ⟨request, noRequest, -⟩ :=
        stage.requested i key inKeys inKeys (by rw [List.getElem?_eq_getElem hi, entry])
      cases noRequest
  obtain ⟨ps, mapped, related⟩ := List.mapM_eq_some_of_isSome allSome
  have sameLength : prefixes.length = ps.length := related.length_eq
  refine ⟨ps, mapped, inv, by rw [← sameLength]; exact stage.length, fun idx key member => ?_,
    faithful⟩
  have hidx : idx < prefixes.length := stage.length ▸ keysOk.lt idx key member
  have hps : idx < ps.length := sameLength ▸ hidx
  have entry : prefixes[idx] = some ps[idx] := by simpa using related.get hidx hps
  exact ⟨ps[idx], List.getElem?_eq_getElem hps,
    stage.settled idx key _ member (by rw [List.getElem?_eq_getElem hidx, entry])⟩

variable {DB : Type} [Database DB] {db : DB}

/-- The loop of `load_ancestors` from depth `c` on, with the iterations left to depth 65: it
returns, with every key settled. The induction is on the iterations left; an iteration that
requests nothing ends the loop, and one that requests a level lies above depth 65. -/
theorem loadAncestorsLoop_spec
    (reads : ∀ requests, Database.treeNodes db requests =
      some (requests.map fun request => store request.1))
    (fresh : ∀ key node, store key = some node → key.version < version)
    {sortedKeys : SortedKeys} (keysOk : KeysOk sortedKeys.keys) (fuel : Nat) :
    ∀ {c W prefixes prev}, c + fuel = 2 * KEY_SIZE + 1 →
      LoadInv H store contents version sortedKeys.keys W c prefixes prev →
      ∃ ps W', loadAncestorsLoop sortedKeys db (fuel + 1) c W prefixes prev = some (ps, W') ∧
        W'.rootVersion = W.rootVersion ∧ Loaded H store contents version sortedKeys.keys W' ps := by
  induction fuel with
  | zero =>
    intro c W prefixes prev last loadInv
    obtain ⟨⟨prefixes', prev', requests⟩, folded, stage⟩ :=
      requestKeys_spec loadInv.ws keysOk loadInv.levels loadInv.positive loadInv.stage
    have noRequest : requests = [] :=
      stage.requests_eq_nil loadInv.ws (by unfold KEY_SIZE at last ⊢; omega)
    subst noRequest
    obtain ⟨ps, mapped, loaded⟩ := stage.mapM_prefixes loadInv.ws keysOk loadInv.faithful
    refine ⟨ps, W, ?_, rfl, loaded⟩
    simp [loadAncestorsLoop, folded, mapped]
  | succ fuel ih =>
    intro c W prefixes prev left loadInv
    obtain ⟨⟨prefixes', prev', requests⟩, folded, stage⟩ :=
      requestKeys_spec loadInv.ws keysOk loadInv.levels loadInv.positive loadInv.stage
    cases requests with
    | nil =>
      obtain ⟨ps, mapped, loaded⟩ := stage.mapM_prefixes loadInv.ws keysOk loadInv.faithful
      exact ⟨ps, W, by simp [loadAncestorsLoop, folded, mapped], rfl, loaded⟩
    | cons request rest =>
      -- a request hangs from an internal node, so the iteration is above depth 65
      have shallow : ¬ c > 2 * KEY_SIZE :=
        fun deep => List.cons_ne_nil _ _ (stage.requests_eq_nil loadInv.ws deep)
      obtain ⟨m, rfl⟩ : ∃ m, c = m + 1 := ⟨c - 1, by have := loadInv.positive; omega⟩
      obtain ⟨level, mapped, ok, complete⟩ := exists_level loadInv.ws loadInv.levels stage
      have next : LoadInv H store contents version sortedKeys.keys (W.pushLevelFromDb level)
          (m + 2) prefixes' prev' :=
        ⟨loadInv.ws.pushLevel loadInv.levels fresh ok, by simp [pushLevelFromDb, loadInv.levels],
          by omega, stage.pushLevel loadInv.ws loadInv.levels ok complete,
          loadInv.faithful.pushLevel loadInv.levels ok⟩
      obtain ⟨ps, W', loop, rootVersion, loaded⟩ := ih (by omega) next
      refine ⟨ps, W', ?_, by rw [rootVersion]; rfl, loaded⟩
      rw [loadAncestorsLoop]
      simp only [folded, reads, Option.bind_eq_bind, Option.bind_some, List.isEmpty_cons,
        Bool.false_eq_true, if_false] at mapped ⊢
      rw [mapped]
      exact loop

end Loop

section Spec

variable {H : HashTree} {store : NodeStore} {contents : Contents} {version : Nat}
  {keys : List (Nat × Key)}

/-- A root that is not internal settles every key at the root: the working set has no internal
node to go down from. -/
theorem loaded_of_not_internal {W : WorkingPatchSet} (keysOk : KeysOk keys)
    (inv : WsInv H store contents W.getWorking version (Below keys))
    (levels : W.changesByNibbleCount.length ≤ 1)
    (notInternal : ∀ working node, W.getWorking Nibbles.EMPTY = some working →
      working.inner ≠ .internal node) (faithful : Faithful H store contents W.getWorking) :
    Loaded H store contents version keys W (List.replicate keys.length Nibbles.EMPTY) := by
  refine ⟨inv, List.length_replicate, fun idx key member => ⟨Nibbles.EMPTY, ?_, ?_⟩, faithful⟩
  · rw [List.getElem?_replicate, if_pos (keysOk.lt idx key member)]
  · refine ⟨new_zero key ▸ under_new key 0, Or.inr rfl, fun n working node ref found internal _ => ?_,
      fun working node found internal => absurd internal (notInternal working node found)⟩
    cases n with
    | zero =>
      rw [new_zero] at found
      exact absurd internal (notInternal working node found)
    | succ n =>
      have := nibbleCount_lt_of_getWorking (by rw [found]; rfl : (W.getWorking _).isSome)
      rw [new_nibbleCount] at this
      omega

theorem WsInv.weaken {W : Nibbles → Option WorkingNode} {pending pending' : Nibbles → Prop}
    (inv : WsInv H store contents W version pending) (implies : ∀ q, pending q → pending' q) :
    WsInv H store contents W version pending' :=
  ⟨inv.rootEmpty, inv.nodeOk, inv.prevLt, inv.refsLe,
    fun q working found nonRoot => (inv.parent q working found nonRoot).weaken (implies q)⟩

/-- The entries of a block, each with the prefix that `load_ancestors` gives its key, start the
insertions. -/
theorem Loaded.insertInv {entries : List TreeEntry} {W : WorkingPatchSet} {ps : List Nibbles}
    (loaded : Loaded H store contents version (SortedKeys.new (entries.map (·.key))).keys W ps)
    (rootVersion : W.rootVersion = version) :
    InsertInv H store contents version W (entries.zip ps) := by
  have length : ps.length = entries.length := by simpa using loaded.length
  -- the prefix of an entry is the one of its index in the block
  have prefixAt : ∀ i (h : i < entries.length), ∃ hp : i < ps.length,
      Settled W.getWorking entries[i].key ps[i] := by
    intro i h
    have inKeys : (i, entries[i].key) ∈ (SortedKeys.new (entries.map (·.key))).keys :=
      mem_keys_sortedKeys_new.mpr ⟨by simpa using h, by simp⟩
    obtain ⟨p, atIdx, settled⟩ := loaded.settled _ _ inKeys
    have hp : i < ps.length := by omega
    rw [List.getElem?_eq_getElem hp, Option.some.injEq] at atIdx
    exact ⟨hp, atIdx ▸ settled⟩
  have settled : ∀ entry start, (entry, start) ∈ entries.zip ps →
      Settled W.getWorking entry.key start := by
    intro entry start member
    obtain ⟨i, hi, same⟩ := List.mem_iff_getElem.mp member
    rw [List.getElem_zip, Prod.mk.injEq] at same
    obtain ⟨rfl, rfl⟩ := same
    exact (prefixAt i (by simp at hi; omega)).2
  refine ⟨rootVersion, loaded.ws.weaken fun q below => ?_,
    fun entry start member => ⟨(settled entry start member).under,
      (settled entry start member).present⟩,
    fun entry start member => (settled entry start member).loaded⟩
  -- a key of the block is pending with its entry
  obtain ⟨idx, key, member, under⟩ := below
  obtain ⟨h, rfl⟩ := mem_keys_sortedKeys_new.mp member
  have h' : idx < entries.length := by simpa using h
  obtain ⟨hp, -⟩ := prefixAt idx h'
  refine ⟨entries[idx], ps[idx], List.mem_iff_getElem.mpr ⟨idx, by simp; omega, ?_⟩, by simpa using under⟩
  rw [List.getElem_zip]

variable {DB : Type} [Database DB] {db : DB}

/-- `load_ancestors` on the working set of a new version returns, with a working set for the
contents of the root and every key of the block settled. -/
theorem loadAncestors_spec
    (reads : ∀ requests, Database.treeNodes db requests =
      some (requests.map fun request => store request.1))
    (fresh : ∀ key node, store key = some node → key.version < version) {root : Root}
    (rootHolds : RootHolds H store contents root) (ks : List Key) :
    ∃ ps W, (WorkingPatchSet.new version root).loadAncestors (SortedKeys.new ks) db =
        some (ps, W) ∧ W.rootVersion = version ∧
      Loaded H store contents version (SortedKeys.new ks).keys W ps := by
  have inv : WsInv H store contents (WorkingPatchSet.new version root).getWorking version
      (Below (SortedKeys.new ks).keys) := WsInv.new rootHolds fresh
  cases root with
  | empty =>
    refine ⟨_, _, by simp [loadAncestors, WorkingPatchSet.get, getWorking_new_empty], rfl,
      loaded_of_not_internal (keysOk_sortedKeys_new ks) inv (by simp [WorkingPatchSet.new])
        (fun working node found => ?_) (faithful_new rootHolds version)⟩
    rw [getWorking_new_empty] at found
    cases found
  | filled leafCount positive node =>
    cases node with
    | leaf leaf =>
      refine ⟨_, _, by simp [loadAncestors, WorkingPatchSet.get, getWorking_new_filled], rfl,
        loaded_of_not_internal (keysOk_sortedKeys_new ks) inv (by simp [WorkingPatchSet.new])
        (fun working node found => ?_) (faithful_new rootHolds version)⟩
      rw [getWorking_new_filled, if_pos rfl] at found
      cases found
      exact Node.noConfusion
    | internal rootNode =>
      -- the loop from depth 1, below the root
      have start : LoadInv H store contents version (SortedKeys.new ks).keys
          (WorkingPatchSet.new version (.filled leafCount positive (.internal rootNode))) 1
          (List.replicate (SortedKeys.new ks).keys.length none) none := by
        refine ⟨inv, rfl, Nat.one_pos, ⟨List.length_replicate, fun idx key p _ found => ?_,
          fun idx key _ _ m below => ?_, fun _ _ _ never _ => never.elim,
          (fun _ none' => by cases none'), fun p isPrev => ?_⟩, faithful_new rootHolds version⟩
        · simp [List.getElem?_replicate] at found
        · obtain rfl : m = 0 := by omega
          rw [new_zero, getWorking_new_filled, if_pos rfl]
          rfl
        · cases isPrev
      obtain ⟨ps, W, loop, rootVersion, loaded⟩ :=
        loadAncestorsLoop_spec reads fresh (keysOk_sortedKeys_new ks) (2 * KEY_SIZE) (by rfl)
          start
      refine ⟨ps, W, ?_, rootVersion, loaded⟩
      simp only [loadAncestors, WorkingPatchSet.get, getWorking_new_filled, if_pos, Option.map_some]
      exact loop

end Spec

end ZksyncEra.MerkleTree
