import ZksyncEra.MerkleTree.Spec.TreeHash

/-!
The reference model of the tree: a map from keys to values and leaf indices, written entry by
entry with the last write winning. A block's output is the hash of the complete tree over the
map, the number of keys in it, and for every entry whether its key was new or what it held.
-/

namespace ZksyncEra.MerkleTree

/-- The contents after writing an entry. -/
def Contents.write (contents : Contents) (entry : TreeEntry) : Contents :=
  fun key => if key = entry.key then some (entry.value, entry.leafIndex) else contents key

/-- The log of writing to `key`: inserted if it was absent, otherwise what it held. -/
def writeLog (contents : Contents) (key : Key) : TreeLogEntry :=
  match contents key with
  | none => .inserted
  | some (value, leafIndex) => .updated leafIndex value

theorem writeLog_eq_inserted_iff (contents : Contents) (key : Key) :
    writeLog contents key = .inserted ↔ contents key = none := by
  cases present : contents key with
  | none => simp [writeLog, present]
  | some value => simp [writeLog, present]

theorem Contents.write_self (contents : Contents) (entry : TreeEntry) :
    contents.write entry entry.key = some (entry.value, entry.leafIndex) := by
  simp [Contents.write]

theorem Contents.write_of_ne (contents : Contents) (entry : TreeEntry) {key : Key}
    (other : key ≠ entry.key) : contents.write entry key = contents key := by
  simp [Contents.write, other]

/-- The tree contents as a finite map. -/
abbrev Reference := HashMap Key (ValueHash × Nat)

namespace Reference

def contents (reference : Reference) : Contents :=
  fun key => reference.lookup key

def write (reference : Reference) (entry : TreeEntry) : Reference :=
  reference.insert entry.key (entry.value, entry.leafIndex)

/-- The logs of a block and the map after it. -/
def writeBlock : Reference → List TreeEntry → List TreeLogEntry × Reference
  | reference, [] => ([], reference)
  | reference, entry :: rest =>
    let (logs, reference') := writeBlock (reference.write entry) rest
    (writeLog reference.contents entry.key :: logs, reference')

/-- The expected output of a block, and the map after it. -/
def output (H : HashTree) (reference : Reference) (entries : List TreeEntry) :
    BlockOutput × Reference :=
  let (logs, reference') := reference.writeBlock entries
  (⟨treeHash H reference'.contents, reference'.entries.length, logs⟩, reference')

/-- The expected outputs of a sequence of blocks. -/
def outputs (H : HashTree) : Reference → List (List TreeEntry) → List BlockOutput
  | _, [] => []
  | reference, entries :: blocks =>
    let (output, reference') := reference.output H entries
    output :: outputs H reference' blocks

/-- The map after a sequence of blocks. -/
def afterBlocks (reference : Reference) (blocks : List (List TreeEntry)) : Reference :=
  blocks.foldl (fun reference entries => (reference.writeBlock entries).2) reference

theorem contents_write (reference : Reference) (entry : TreeEntry) :
    (reference.write entry).contents = reference.contents.write entry := by
  funext key
  unfold contents write Contents.write
  by_cases same : key = entry.key
  · rw [same, AList.lookup_insert, if_pos rfl]
  · rw [AList.lookup_insert_ne same, if_neg same]

theorem length_entries (reference : Reference) :
    reference.entries.length = reference.keys.length := by
  simp [AList.keys, List.keys]

/-- Writing a key adds one to the count exactly when the key was absent. -/
theorem length_write (reference : Reference) (entry : TreeEntry) :
    (reference.write entry).entries.length =
      if reference.contents entry.key = none then reference.entries.length + 1
      else reference.entries.length := by
  unfold write contents
  rw [length_entries, length_entries, AList.keys_insert, List.length_cons]
  by_cases present : entry.key ∈ reference.keys
  · have inMap : entry.key ∈ reference := AList.mem_keys.mpr present
    rw [if_neg (fun absent => AList.lookup_eq_none.mp absent inMap),
      List.length_erase_of_mem present]
    have := List.length_pos_of_mem present
    omega
  · rw [if_pos (AList.lookup_eq_none.mpr (fun inMap => present (AList.mem_keys.mp inMap))),
      List.erase_of_not_mem present]

/-- No key is present exactly when the map is empty. -/
theorem contents_eq_none_iff (reference : Reference) :
    (∀ key, reference.contents key = none) ↔ reference.entries.length = 0 := by
  rw [length_entries, List.length_eq_zero_iff, List.eq_nil_iff_forall_not_mem]
  unfold contents
  simp only [AList.lookup_eq_none, AList.mem_keys]

end Reference

end ZksyncEra.MerkleTree
