import ZksyncEra.MerkleTree.Spec.LeafRoot
import ZksyncEra.MerkleTree.Patched

/-!
Truncation of recent versions over a `PatchSet` (`lib.rs`, `storage/database.rs`), and the
`Patched` overlay over a truncated patch set.

`truncate_recent_versions(n)` asks the database to truncate `..current_version_count`. RocksDB
deletes the stale keys of the versions `n..current_version_count` only; `PatchSet::truncate`
deletes the stale keys of every version below the old count, the retained versions included, and
keeps the patches of the truncated versions, so `try_root` still reads their roots.

The `Patched` overlay decides by the manifest of its patch whether it is responsible for a
version, while applying the same patch to the patch set directly keeps what the patch does not
overwrite. Over a truncated patch set the two then read different roots for a truncated version.
-/

set_option linter.dupNamespace false

namespace ZksyncEra.MerkleTree

open Nibbles

/-! ### Truncating a patch set -/

namespace PatchSet

theorem staleKeys_truncate (db : PatchSet) (manifest : Manifest) (truncatedVersions v : Nat) :
    (db.truncate manifest truncatedVersions).staleKeys v =
      if v < truncatedVersions then [] else db.staleKeys v := by
  unfold truncate staleKeys
  rw [HashMap.lookup_retain]
  cases db.staleKeysByVersion.lookup v with
  | none => simp
  | some keys => by_cases below : v < truncatedVersions <;> simp [Option.filter, below]

/-- Truncation keeps every patch, so the roots of the truncated versions stay readable. -/
@[simp] theorem tryRoot_truncate (db : PatchSet) (manifest : Manifest) (truncatedVersions v : Nat) :
    (db.truncate manifest truncatedVersions).tryRoot v = db.tryRoot v := rfl

/-- The versions whose stale keys `min_stale_key_version` ranges over are those with stale keys. -/
theorem mem_versionsWithStaleKeys (db : PatchSet) (v : Nat) :
    v ∈ (db.staleKeysByVersion.entries.filterMap fun entry =>
      if entry.2.isEmpty then none else some entry.1) ↔ db.staleKeys v ≠ [] := by
  rw [List.mem_filterMap]
  constructor
  · rintro ⟨⟨k, keys⟩, member, found⟩
    have nonempty : keys ≠ [] := by
      intro empty
      simp [empty] at found
    have same : k = v := by simpa [nonempty] using found
    subst same
    have stored : db.staleKeysByVersion.lookup k = some keys := AList.mem_lookup_iff.mpr member
    simpa [staleKeys, stored] using nonempty
  · intro nonempty
    cases found : db.staleKeysByVersion.lookup v with
    | none => simp [staleKeys, found] at nonempty
    | some keys =>
      have kept : keys ≠ [] := by simpa [staleKeys, found] using nonempty
      exact ⟨⟨v, keys⟩, AList.mem_lookup_iff.mp found, by simp [kept]⟩

theorem minStaleKeyVersion_eq_some {db : PatchSet} {v : Nat} (present : db.staleKeys v ≠ [])
    (below : ∀ u < v, db.staleKeys u = []) : db.minStaleKeyVersion = some v := by
  unfold minStaleKeyVersion
  rw [List.min?_eq_some_iff]
  refine ⟨(mem_versionsWithStaleKeys db v).mpr present, fun u member => ?_⟩
  by_contra smaller
  exact (mem_versionsWithStaleKeys db u).mp member (below u (by omega))

theorem minStaleKeyVersion_eq_none {db : PatchSet} (empty : ∀ v, db.staleKeys v = []) :
    db.minStaleKeyVersion = none := by
  unfold minStaleKeyVersion
  rw [List.min?_eq_none_iff, List.eq_nil_iff_forall_not_mem]
  intro v member
  exact (mem_versionsWithStaleKeys db v).mp member (empty v)

@[simp] theorem manifest_truncate (db : PatchSet) (manifest : Manifest) (truncatedVersions : Nat) :
    (db.truncate manifest truncatedVersions).manifest = manifest := rfl

end PatchSet

/-- `truncate_recent_versions` below the version count truncates the patch set with the
manifest of the retained versions. -/
theorem MerkleTree.truncateRecentVersions_of_lt (tree : MerkleTree PatchSet) {n : Nat}
    (fewer : n < tree.db.manifest.versionCount) :
    tree.truncateRecentVersions n = ⟨tree.db.truncate
      { tree.db.manifest with versionCount := n } tree.db.manifest.versionCount, tree.hasher⟩ := by
  simp [MerkleTree.truncateRecentVersions, Database.tryManifest, PatchSet.tryManifest, fewer]
  rfl

/-! ### Three versions with a root leaf -/

/-- A run of three blocks from the empty tree: one entry, then two empty blocks. Every version's
root is the entry's leaf, and each empty block makes the root before it stale. -/
theorem MerkleTree.extend_single_nil_nil (H : HashTree) (entry : TreeEntry) :
    ∃ db, (((⟨default, H⟩ : MerkleTree PatchSet).extend [entry] >>= fun first =>
        first.2.extend []) >>= fun second => second.2.extend []) =
        .ok (⟨(LeafNode.new entry).hash H 0, 1, []⟩, ⟨db, H⟩) ∧
      db.manifest.versionCount = 3 ∧
      (∀ u, db.tryRoot u =
        if u < 3 then some (.filled 1 Nat.one_pos (.leaf (LeafNode.new entry))) else none) ∧
      (∀ u, db.staleKeys u = if u = 1 then [EMPTY.withVersion 0]
        else if u = 2 then [EMPTY.withVersion 1] else []) := by
  obtain ⟨db₁, first, wrote₁⟩ := MerkleTree.extend_single_default H entry
  obtain ⟨db₂, second, wrote₂⟩ :=
    MerkleTree.extend_nil_leafRoot ⟨db₁, H⟩ (v := 0) wrote₁.versionCount wrote₁.tryRoot_self
  obtain ⟨db₃, third, wrote₃⟩ :=
    MerkleTree.extend_nil_leafRoot ⟨db₂, H⟩ (v := 1) wrote₂.versionCount wrote₂.tryRoot_self
  refine ⟨db₃, ?_, wrote₃.versionCount, fun u => ?_, fun u => ?_⟩
  · rw [first]
    simp only [bind, Except.bind, second, third]
  · -- each version's root comes from its own block; the empty patch set has none
    rw [wrote₃.roots, wrote₂.roots, wrote₁.roots]
    by_cases two : u = 2
    · simp [two, Root.clone, Node.clone]
    by_cases one : u = 1
    · simp [one, Root.clone, Node.clone]
    by_cases zero : u = 0
    · simp [zero, Root.clone, Node.clone]
    have above : ¬ u < 3 := by omega
    simp [two, one, zero, above]
    rfl
  · -- the first block makes nothing stale, and the empty patch set has no stale keys
    have none : ∀ u, (default : PatchSet).staleKeys u = [] := fun u => rfl
    rw [wrote₃.staleKeys, wrote₂.staleKeys, wrote₁.staleKeys]
    by_cases two : u = 2
    · simp [two, none]
    by_cases one : u = 1
    · simp [one, none]
    simp [two, one, none]

/-! ### Truncation after three versions -/

/-- Three versions with a root leaf, truncated to two: the stale keys of the retained version 1
are gone, the truncated version 2 still reads its root, the latest version is 1, and the first
retained version moves from 0 to 1. -/
theorem truncateRecentVersions_after_extend_single_nil_nil (H : HashTree) (entry : TreeEntry) :
    ((((⟨default, H⟩ : MerkleTree PatchSet).extend [entry] >>= fun first =>
        first.2.extend []) >>= fun second => second.2.extend []).map fun third =>
          (PruneDatabase.staleKeys third.2.db 1,
            PruneDatabase.staleKeys (third.2.truncateRecentVersions 2).db 1,
            Database.tryRoot (third.2.truncateRecentVersions 2).db 2,
            (third.2.truncateRecentVersions 2).latestVersion,
            third.2.firstRetainedVersion,
            (third.2.truncateRecentVersions 2).firstRetainedVersion)) =
      .ok ([EMPTY.withVersion 0], [], some (.filled 1 Nat.one_pos (.leaf (LeafNode.new entry))),
        some 1, some 0, some 1) := by
  obtain ⟨db, run, versions, roots, stale⟩ := MerkleTree.extend_single_nil_nil H entry
  have truncated := MerkleTree.truncateRecentVersions_of_lt ⟨db, H⟩ (n := 2)
    (show 2 < db.manifest.versionCount by omega)
  -- before: version 1 is the least with stale keys
  have before : db.minStaleKeyVersion = some 1 :=
    PatchSet.minStaleKeyVersion_eq_some (by simp [stale]) fun u below => by
      simp [stale, show u ≠ 1 by omega, show u ≠ 2 by omega]
  -- after: the stale keys of every version are gone
  have after : (db.truncate ⟨2, db.manifest.tags⟩ 3).minStaleKeyVersion = none :=
    PatchSet.minStaleKeyVersion_eq_none fun u => by
      rw [PatchSet.staleKeys_truncate]
      by_cases below : u < 3
      · simp [below]
      · simp [below, stale, show u ≠ 1 by omega, show u ≠ 2 by omega]
  rw [run]
  simp only [Except.map, PruneDatabase.staleKeys, Database.tryRoot, truncated,
    PatchSet.staleKeys_truncate, PatchSet.tryRoot_truncate, roots, stale, versions]
  simp [MerkleTree.latestVersion, MerkleTree.firstRetainedVersion, PruneDatabase.minStaleKeyVersion,
    Database.tryManifest, PatchSet.tryManifest, before, after]

/-! ### The overlay over a truncated patch set -/

/-- `MerkleTree::extend` over a fresh overlay keeps the new patch in memory. -/
theorem MerkleTree.extend_patched_new (db : PatchSet) (H : HashTree) {v : Nat}
    {entries : List TreeEntry} {output : BlockOutput} {patch : PatchSet}
    (versions : db.manifest.versionCount = v)
    (extended : (Storage.new (Patched.new db) H v true).extend entries = some (output, patch)) :
    (⟨Patched.new db, H⟩ : MerkleTree (Patched PatchSet)).extend entries =
      .ok (output, ⟨⟨db, some patch⟩, H⟩) := by
  have manifest : Database.tryManifest (Patched.new db) = some db.manifest := rfl
  simp only [MerkleTree.extend, manifest, Option.getD_some, versions, extended]
  rfl

/-- Three versions with a root leaf truncated to one, then an empty block: over the overlay the
truncated version 2 has no root, since the new patch's manifest makes the overlay responsible for
it; applied to the patch set directly, the old root of version 2 is still read. -/
theorem patched_extend_after_truncation (H : HashTree) (entry : TreeEntry) :
    ((((⟨default, H⟩ : MerkleTree PatchSet).extend [entry] >>= fun first =>
        first.2.extend []) >>= fun second => second.2.extend []) >>= fun third =>
      ((⟨Patched.new (third.2.truncateRecentVersions 1).db, H⟩ :
          MerkleTree (Patched PatchSet)).extend []) >>= fun overlay =>
        ((third.2.truncateRecentVersions 1).extend []).map fun direct =>
          (Database.tryRoot overlay.2.db 2, Database.tryRoot direct.2.db 2)) =
      .ok (none, some (.filled 1 Nat.one_pos (.leaf (LeafNode.new entry)))) := by
  obtain ⟨db, run, versions, roots, -⟩ := MerkleTree.extend_single_nil_nil H entry
  rw [run]
  simp only [bind, Except.bind]
  rw [MerkleTree.truncateRecentVersions_of_lt ⟨db, H⟩ (show 1 < db.manifest.versionCount by omega)]
  set dbT := db.truncate { db.manifest with versionCount := 1 } db.manifest.versionCount
  have countT : dbT.manifest.versionCount = 0 + 1 := rfl
  have storedT : dbT.tryRoot 0 = some (.filled 1 Nat.one_pos (.leaf (LeafNode.new entry))) := by
    rw [PatchSet.tryRoot_truncate, roots]
    rfl
  -- the direct path: the patch of version 1 leaves the old root of version 2 in place
  obtain ⟨direct, plain, wrote⟩ := MerkleTree.extend_nil_leafRoot ⟨dbT, H⟩ (v := 0) countT storedT
  -- the overlay path: the same block over `Patched`, whose reads fall through to the patch set
  obtain ⟨updater, count, operation⟩ :=
    Storage.new_of_tryRoot (Patched.new dbT) H 0 storedT
  have overlaid := MerkleTree.extend_patched_new dbT H countT
    (Storage.extend_nil_leafRoot _ updater count operation)
  simp only [overlaid, plain]
  have overlayRoot := Patched.tryRoot_of_versionCount_le dbT
    (PatchSet.new (Storage.new (Patched.new dbT) H (0 + 1) true).manifest (0 + 1)
      (.filled 1 Nat.one_pos (.leaf (LeafNode.new entry))) ∅ [EMPTY.withVersion 0] .insert)
    2 (by simp [PatchSet.new, Storage.new])
  have directRoot : Database.tryRoot direct 2 = dbT.tryRoot 2 := wrote.roots 2
  simp only [Except.map, overlayRoot, directRoot, PatchSet.tryRoot_new, PatchSet.tryRoot_truncate,
    dbT, roots]
  simp

end ZksyncEra.MerkleTree
