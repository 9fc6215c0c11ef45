import Mathlib

/-!
Complete binary Merkle trees over an abstract compression function.

`root branch d leaf` is the hash of the complete binary tree of height `d` whose leaves,
from left to right, hash to `leaf 0, leaf 1, …, leaf (2 ^ d - 1)`. A sparse tree is the case
where all but a few leaves hash to a fixed vacant value; its vacant subtrees hash to
`emptyRoot`. The lemmas are those the tree models rely on: congruence, vacant trees, cutting a
tree into a top tree over subtrees, and folding a single occupied leaf up its path.
-/

namespace Merkle

variable {H : Type} (branch : H → H → H)

/-- Hash of the complete binary tree of height `d` over the leaf hashes `leaf 0, leaf 1, …`. -/
def root : Nat → (Nat → H) → H
  | 0, leaf => leaf 0
  | d + 1, leaf => branch (root d leaf) (root d fun x => leaf (2 ^ d + x))

/-- Hash of a complete tree of height `d` all of whose leaves hash to `vacant`. -/
def emptyRoot (vacant : H) : Nat → H
  | 0 => vacant
  | d + 1 => branch (emptyRoot vacant d) (emptyRoot vacant d)

/-- The hash `h` of the leaf at position `x`, folded up `d` levels with `sibling i` as the
sibling at height `i`; bit `i` of `x` tells whether the path enters its parent from the right. -/
def foldPath (sibling : Nat → H) (x : Nat) (h : H) : Nat → H
  | 0 => h
  | i + 1 =>
    if x.testBit i then branch (sibling i) (foldPath sibling x h i)
    else branch (foldPath sibling x h i) (sibling i)

@[simp] theorem root_zero (leaf : Nat → H) : root branch 0 leaf = leaf 0 := rfl

theorem root_succ (d : Nat) (leaf : Nat → H) :
    root branch (d + 1) leaf = branch (root branch d leaf) (root branch d fun x => leaf (2 ^ d + x)) :=
  rfl

@[simp] theorem emptyRoot_zero (vacant : H) : emptyRoot branch vacant 0 = vacant := rfl

theorem emptyRoot_succ (vacant : H) (d : Nat) :
    emptyRoot branch vacant (d + 1) =
      branch (emptyRoot branch vacant d) (emptyRoot branch vacant d) :=
  rfl

@[simp] theorem foldPath_zero (sibling : Nat → H) (x : Nat) (h : H) :
    foldPath branch sibling x h 0 = h := rfl

theorem foldPath_succ (sibling : Nat → H) (x : Nat) (h : H) (i : Nat) :
    foldPath branch sibling x h (i + 1) =
      if x.testBit i then branch (sibling i) (foldPath branch sibling x h i)
      else branch (foldPath branch sibling x h i) (sibling i) :=
  rfl

/-- Only the leaves inside the tree matter. -/
theorem root_congr {d : Nat} {f g : Nat → H} (same : ∀ x < 2 ^ d, f x = g x) :
    root branch d f = root branch d g := by
  induction d generalizing f g with
  | zero => exact same 0 (by simp)
  | succ d ih =>
    have width : 2 ^ (d + 1) = 2 ^ d + 2 ^ d := by rw [Nat.pow_succ]; omega
    rw [root_succ, root_succ, ih fun x hx => same x (by omega),
      ih fun x hx => same (2 ^ d + x) (by omega)]

/-- A tree whose leaves are all vacant hashes to the vacant subtree hash of its height. -/
theorem root_of_vacant {d : Nat} {f : Nat → H} {vacant : H} (all : ∀ x < 2 ^ d, f x = vacant) :
    root branch d f = emptyRoot branch vacant d := by
  induction d generalizing f with
  | zero => exact all 0 (by simp)
  | succ d ih =>
    have width : 2 ^ (d + 1) = 2 ^ d + 2 ^ d := by rw [Nat.pow_succ]; omega
    rw [root_succ, emptyRoot_succ, ih fun x hx => all x (by omega),
      ih fun x hx => all (2 ^ d + x) (by omega)]

/-- A tree of height `d + e` is a tree of height `e` over its subtrees of height `d`. -/
theorem root_add (d e : Nat) (f : Nat → H) :
    root branch (d + e) f = root branch e fun y => root branch d fun x => f (y * 2 ^ d + x) := by
  induction e generalizing f with
  | zero => simp
  | succ e ih =>
    rw [← Nat.add_assoc, root_succ, root_succ, ih, ih]
    congr 1
    apply root_congr
    intro y _
    apply root_congr
    intro x _
    congr 1
    rw [Nat.pow_add, Nat.add_mul]
    ring

/-- The folded path depends only on the bits of the position below the folded height. -/
theorem foldPath_congr (sibling : Nat → H) {x y : Nat} (h : H) {d : Nat}
    (bits : ∀ i < d, x.testBit i = y.testBit i) :
    foldPath branch sibling x h d = foldPath branch sibling y h d := by
  induction d with
  | zero => rfl
  | succ d ih =>
    rw [foldPath_succ, foldPath_succ, bits d (by omega), ih fun i hi => bits i (by omega)]

/-- A vacant leaf folded up with vacant siblings gives the vacant subtree of that height. -/
theorem foldPath_of_vacant (vacant : H) (x d : Nat) :
    foldPath branch (emptyRoot branch vacant) x (emptyRoot branch vacant 0) d =
      emptyRoot branch vacant d := by
  induction d with
  | zero => rfl
  | succ d ih =>
    rw [foldPath_succ, ih, emptyRoot_succ]
    split <;> rfl

/-- A tree with a single non-vacant leaf at position `x` hashes to that leaf folded up its
path, with vacant subtrees as siblings. -/
theorem root_of_single {d : Nat} {f : Nat → H} {vacant : H} {x : Nat} (inside : x < 2 ^ d)
    (others : ∀ y < 2 ^ d, y ≠ x → f y = vacant) :
    root branch d f = foldPath branch (emptyRoot branch vacant) x (f x) d := by
  induction d generalizing f x with
  | zero =>
    have : x = 0 := by simpa using inside
    subst x
    rfl
  | succ d ih =>
    have width : 2 ^ (d + 1) = 2 ^ d + 2 ^ d := by rw [Nat.pow_succ]; omega
    rw [root_succ, foldPath_succ]
    by_cases left : x < 2 ^ d
    · -- the leaf sits in the left half; the right half is vacant
      have bit : x.testBit d = false := Nat.testBit_lt_two_pow left
      have right : root branch d (fun y => f (2 ^ d + y)) = emptyRoot branch vacant d :=
        root_of_vacant branch fun y hy => others (2 ^ d + y) (by omega) (by omega)
      rw [bit, if_neg Bool.false_ne_true, right,
        ih left fun y hy ne => others y (by omega) ne]
    · -- the leaf sits in the right half at offset `x - 2 ^ d`
      obtain ⟨z, rfl⟩ : ∃ z, x = 2 ^ d + z := ⟨x - 2 ^ d, by omega⟩
      have below : z < 2 ^ d := by omega
      have bit : (2 ^ d + z).testBit d = true := by
        rw [Nat.testBit_two_pow_add_eq, Nat.testBit_lt_two_pow below]; rfl
      have leftHalf : root branch d f = emptyRoot branch vacant d :=
        root_of_vacant branch fun y hy => others y (by omega) (by omega)
      rw [bit, if_pos rfl, leftHalf,
        ih (f := fun y => f (2 ^ d + y)) below fun y hy ne => others (2 ^ d + y) (by omega)
          (by omega)]
      congr 1
      exact foldPath_congr branch _ _ fun i hi => (Nat.testBit_two_pow_add_gt hi z).symm

end Merkle
