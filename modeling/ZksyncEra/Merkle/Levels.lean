import ZksyncEra.Merkle.CompleteTree

/-!
The levels of a complete binary Merkle tree, as lists of consecutive subtree hashes.

The level above a level hashes its adjacent pairs (`parents`); array code does this in place
(`pairInPlace`), with the same result on a level of even length. `node leaf l j` is the subtree
of height `l` at position `j` of the tree over `leaf`. A run of nodes from an even position pairs
up into the run of their parents, and a node past the last occupied leaf is an empty subtree. The
leaf at `x` folded up with the nodes beside its path, at `x / 2 ^ i ^^^ 1`, gives the root. Two
positions are siblings at the height of the highest bit where they differ, and only there; above it
they lie in one subtree.
-/

namespace Merkle

variable {H : Type} (branch : H → H → H)

/-! ### One level up -/

/-- The branches over adjacent pairs; a last unpaired hash is dropped. -/
def parents : List H → List H
  | left :: right :: rest => branch left right :: parents rest
  | _ => []

/-- One round in place: slot `i < count` becomes the branch over slots `2 * i` and `2 * i + 1`.
Reading a slot past the end fails. -/
def pairInPlace (count : Nat) (hashes : List H) : Option (List H) :=
  (List.range count).foldlM (fun hashes i => do
      let left ← hashes[2 * i]?
      let right ← hashes[2 * i + 1]?
      pure (hashes.set i (branch left right)))
    hashes

theorem length_parents : ∀ hashes : List H, (parents branch hashes).length = hashes.length / 2
  | [] => by simp [parents]
  | [_] => by simp [parents]
  | _ :: _ :: rest => by
    rw [parents, List.length_cons, length_parents rest, List.length_cons, List.length_cons]
    omega

theorem parents_append_pair : ∀ (front : List H), front.length % 2 = 0 → ∀ left right : H,
    parents branch (front ++ [left, right]) = parents branch front ++ [branch left right]
  | [], _, _, _ => rfl
  | [_], even, _, _ => by simp at even
  | a :: b :: rest, even, left, right => by
    have restEven : rest.length % 2 = 0 := by
      simp only [List.length_cons] at even
      omega
    rw [List.cons_append, List.cons_append, parents, parents,
      parents_append_pair rest restEven left right, List.cons_append]

/-- After `count` rounds the first `count` slots hold the parents of the first `2 * count` hashes,
and the slots after them are untouched. -/
theorem pairInPlace_eq (hashes : List H) : ∀ count, 2 * count ≤ hashes.length →
    pairInPlace branch count hashes =
      some (parents branch (hashes.take (2 * count)) ++ hashes.drop count)
  | 0, _ => rfl
  | count + 1, enough => by
    have done := pairInPlace_eq hashes count (by omega)
    simp only [pairInPlace] at done ⊢
    rw [List.range_succ, List.foldlM_append, done, Option.bind_eq_bind, Option.bind_some]
    simp only [List.foldlM_cons, List.foldlM_nil, bind_pure]
    set front := parents branch (hashes.take (2 * count)) with frontEq
    have frontLength : front.length = count := by
      rw [frontEq, length_parents, List.length_take]
      omega
    -- the slots read in this round lie past the rewritten ones
    have read : ∀ k, count ≤ k → (front ++ hashes.drop count)[k]? = hashes[k]? := by
      intro k past
      rw [List.getElem?_append_right (by omega), List.getElem?_drop, frontLength]
      congr 1
      omega
    rw [read (2 * count) (by omega), read (2 * count + 1) (by omega),
      List.getElem?_eq_getElem (by omega), List.getElem?_eq_getElem (by omega)]
    simp only [Option.bind_eq_bind, Option.bind_some, Option.pure_def, Option.some.injEq]
    have grown : hashes.take (2 * (count + 1)) =
        hashes.take (2 * count) ++ [hashes[2 * count], hashes[2 * count + 1]] := by
      rw [show 2 * (count + 1) = 2 * count + 1 + 1 by omega, List.take_add_one,
        List.getElem?_eq_getElem (by omega), List.take_add_one, List.getElem?_eq_getElem (by omega),
        Option.toList_some, Option.toList_some, List.append_assoc, List.singleton_append]
    rw [grown, parents_append_pair branch _ (by rw [List.length_take]; omega), ← frontEq,
      List.set_append, if_neg (by omega), frontLength, Nat.sub_self,
      List.drop_eq_getElem_cons (by omega), List.set_cons_zero, List.append_assoc,
      List.singleton_append]

/-- On a level of even length the rounds leave the parents in front. -/
theorem pairInPlace_take {count : Nat} {hashes : List H} (even : hashes.length = 2 * count) :
    (pairInPlace branch count hashes).map (List.take count) = some (parents branch hashes) := by
  have parentsLength : (parents branch hashes).length = count := by
    rw [length_parents, even]
    omega
  rw [pairInPlace_eq branch hashes count (Nat.le_of_eq even.symm),
    List.take_of_length_le (Nat.le_of_eq even), Option.map_some,
    List.take_left' parentsLength]

/-! ### Nodes -/

variable (leaf : Nat → H)

/-- The subtree of height `l` at position `j` of the tree over `leaf`. -/
def node (l j : Nat) : H := root branch l fun x => leaf (j * 2 ^ l + x)

@[simp] theorem node_zero (j : Nat) : node branch leaf 0 j = leaf j := by
  simp [node]

theorem node_succ (l j : Nat) :
    node branch leaf (l + 1) j =
      branch (node branch leaf l (2 * j)) (node branch leaf l (2 * j + 1)) := by
  rw [node, root_succ, node, node]
  congr 2 <;> funext x <;> congr 1 <;> rw [Nat.pow_succ] <;> ring

/-- The root is the node of full height at position `0`. -/
theorem node_height_zero (d : Nat) : node branch leaf d 0 = root branch d leaf := by
  simp [node]

theorem node_congr {leaf' : Nat → H} {l j : Nat}
    (same : ∀ x < 2 ^ l, leaf (j * 2 ^ l + x) = leaf' (j * 2 ^ l + x)) :
    node branch leaf l j = node branch leaf' l j :=
  root_congr branch same

/-- A node whose leaves all lie past the occupied ones is an empty subtree. -/
theorem node_of_vacant {vacant : H} {count : Nat} (beyond : ∀ x, count ≤ x → leaf x = vacant)
    {l j : Nat} (past : count ≤ j * 2 ^ l) : node branch leaf l j = emptyRoot branch vacant l :=
  root_of_vacant branch fun x _ => beyond _ (by omega)

/-- A run of nodes from an even position pairs up into the run of their parents. -/
theorem parents_map_range' (l : Nat) : ∀ p m : Nat,
    parents branch ((List.range' (2 * p) (2 * m)).map (node branch leaf l)) =
      (List.range' p m).map (node branch leaf (l + 1))
  | _, 0 => rfl
  | p, m + 1 => by
    rw [show 2 * (m + 1) = 2 * m + 1 + 1 by omega, List.range'_succ, List.range'_succ,
      List.map_cons, List.map_cons, parents, List.range'_succ, List.map_cons, node_succ,
      show 2 * p + 1 + 1 = 2 * (p + 1) by omega, parents_map_range' l (p + 1) m]

/-! ### Paths -/

theorem xor_one_of_even {n : Nat} (even : n % 2 = 0) : n ^^^ 1 = n + 1 := by
  apply Nat.eq_of_testBit_eq
  intro i
  rw [Nat.testBit_xor]
  cases i with
  | zero => simp [Nat.testBit_zero, even, Nat.add_mod]
  | succ i =>
    rw [Nat.testBit_succ, Nat.testBit_succ, Nat.testBit_succ]
    have half : (n + 1) / 2 = n / 2 := by omega
    simp [half]

theorem xor_one_of_odd {n : Nat} (odd : n % 2 = 1) : n ^^^ 1 = n - 1 := by
  obtain ⟨k, rfl⟩ : ∃ k, n = 2 * k + 1 := ⟨n / 2, by omega⟩
  have flipped := xor_one_of_even (n := 2 * k) (by omega)
  rw [Nat.add_sub_cancel, ← flipped, Nat.xor_assoc, Nat.xor_self, Nat.xor_zero]

theorem xor_one_ne (n : Nat) : n ^^^ 1 ≠ n := by
  rcases Nat.mod_two_eq_zero_or_one n with even | odd
  · rw [xor_one_of_even even]
    omega
  · rw [xor_one_of_odd odd]
    omega

/-- The sibling of a position below an even bound is below it too. -/
theorem xor_one_lt_of_lt {n m : Nat} (below : n < 2 * m) : n ^^^ 1 < 2 * m := by
  rcases Nat.mod_two_eq_zero_or_one n with even | odd
  · rw [xor_one_of_even even]
    omega
  · rw [xor_one_of_odd odd]
    omega

/-- The folded path reads the siblings below its height only. -/
theorem foldPath_sibling_congr {sibling sibling' : Nat → H} (x : Nat) (h : H) {d : Nat}
    (same : ∀ i < d, sibling i = sibling' i) :
    foldPath branch sibling x h d = foldPath branch sibling' x h d := by
  induction d with
  | zero => rfl
  | succ d ih =>
    rw [foldPath_succ, foldPath_succ, same d (by omega), ih fun i hi => same i (by omega)]

/-- Folding the leaf at `x` up `i` levels with the nodes beside its path gives the node above
it at height `i`. -/
theorem foldPath_eq_node (x : Nat) : ∀ i,
    foldPath branch (fun i => node branch leaf i (x / 2 ^ i ^^^ 1)) x (leaf x) i =
      node branch leaf i (x / 2 ^ i)
  | 0 => by simp
  | i + 1 => by
    have half : x / 2 ^ (i + 1) = x / 2 ^ i / 2 := by
      rw [Nat.pow_succ, Nat.div_div_eq_div_mul]
    rw [foldPath_succ, foldPath_eq_node x i, node_succ, half]
    by_cases bit : x.testBit i
    · -- the path enters its parent from the right, the sibling is on the left
      have odd : x / 2 ^ i % 2 = 1 := by
        simpa [Nat.testBit_eq_decide_div_mod_eq] using bit
      rw [if_pos bit, xor_one_of_odd odd]
      congr 2 <;> omega
    · have even : x / 2 ^ i % 2 = 0 := by
        simp only [Nat.testBit_eq_decide_div_mod_eq, decide_eq_true_eq] at bit
        omega
      rw [if_neg bit, xor_one_of_even even]
      congr 2 <;> omega

/-- A leaf folded up with the nodes beside its path gives the root. -/
theorem foldPath_eq_root {d x : Nat} (inside : x < 2 ^ d) :
    foldPath branch (fun i => node branch leaf i (x / 2 ^ i ^^^ 1)) x (leaf x) d =
      root branch d leaf := by
  rw [foldPath_eq_node, Nat.div_eq_of_lt inside, node_height_zero]

end Merkle
