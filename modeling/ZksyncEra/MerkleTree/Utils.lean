import Mathlib

/-!
Misc utils used in tree algorithms (`merkle_tree/src/utils.rs`): the `SmallMap` with keys in
`0..16`, stored as a bitmap of present keys and a dense vector of values in key order.

A key `i` is looked up at the *rank* of bit `i`, the number of set bits below it. The lemmas
below reduce every operation to arithmetic on ranks and then state the map view: `get` after
`insert`, and `iter` as the present keys in increasing order.
-/

namespace ZksyncEra.MerkleTree

/-- `u16::count_ones`. -/
def countOnes (bits : UInt16) : Nat :=
  (List.range 16).countP fun i => bits.toNat.testBit i

/-- Map with keys in the range `0..16`. -/
structure SmallMap (V : Type) where
  /-- Bitmap with the `i`-th bit set to 1 if key `i` is in the map. -/
  bitmap : UInt16
  /-- Values in the order of keys. -/
  values : List V
  values_length : values.length = countOnes bitmap
  deriving DecidableEq

namespace SmallMap

variable {V : Type}

/-- `SmallMap::CAPACITY`. -/
def CAPACITY : UInt8 := 16

instance : Inhabited (SmallMap V) := ⟨⟨0, [], rfl⟩⟩

/-- `SmallMap::default`. -/
def empty : SmallMap V := ⟨0, [], rfl⟩

def len (m : SmallMap V) : Nat :=
  countOnes m.bitmap

/-- `1 << u16::from(index)`. The `assert!(index < Self::CAPACITY)` of `get`, `get_mut` and `insert`
is not modelled: the shift is taken modulo 16 here where the source panics, and every index the
tree passes is a nibble, below 16. -/
def mask (index : UInt8) : UInt16 :=
  1 <<< index.toUInt16

/-- `SmallMap::get`. The value index `(bitmap & (mask - 1)).count_ones()` is in bounds by
`values_length`. -/
def get (m : SmallMap V) (index : UInt8) : Option V :=
  if m.bitmap &&& mask index = 0 then none
  else m.values[countOnes (m.bitmap &&& (mask index - 1))]?

/-- `SmallMap::get_mut`: the reference it returns is read here as the value it points to. -/
def getMut (m : SmallMap V) (index : UInt8) : Option V :=
  if m.bitmap &&& mask index = 0 then none
  else m.values[countOnes (m.bitmap &&& (mask index - 1))]?

/-- `SmallMap::indices`: the keys whose bits are set, in increasing order. -/
def indices (bitmap : UInt16) : List UInt8 :=
  (List.range 16).filterMap fun i =>
    if bitmap &&& mask i.toUInt8 ≠ 0 then some i.toUInt8 else none

def iter (m : SmallMap V) : List (UInt8 × V) :=
  (indices m.bitmap).zip m.values

/-- `u16::leading_zeros`. -/
def leadingZeros (bits : UInt16) : Nat :=
  if bits = 0 then 16 else 15 - bits.toNat.log2

/-- `SmallMap::last`: the greatest key with its value. -/
def last (m : SmallMap V) : Option (UInt8 × V) := do
  let greatestSetBit ← if 16 - leadingZeros m.bitmap ≥ 1 then some (16 - leadingZeros m.bitmap - 1) else none
  let value ← m.values.getLast?
  pure (greatestSetBit.toUInt8, value)

/-! ### Ranks of set bits -/

/-- Number of set bits of `bits` below position `j`. -/
def rank (bits : Nat) (j : Nat) : Nat :=
  (List.range j).countP fun i => bits.testBit i

theorem rank_succ (bits j : Nat) :
    rank bits (j + 1) = rank bits j + if bits.testBit j then 1 else 0 := by
  simp [rank, List.range_succ, List.countP_append]

theorem countOnes_eq_rank (bits : UInt16) : countOnes bits = rank bits.toNat 16 := rfl

theorem rank_le_rank {bits i j : Nat} (le : i ≤ j) : rank bits i ≤ rank bits j := by
  induction j with
  | zero => rw [Nat.le_zero.mp le]
  | succ j ih =>
    rcases Nat.lt_or_eq_of_le le with lt | rfl
    · have := ih (by omega)
      rw [rank_succ]
      omega
    · exact Nat.le_refl _

/-- Distinct set bits have distinct ranks, ordered as the bits are. -/
theorem rank_lt_rank {bits i j : Nat} (lt : i < j) (set : bits.testBit i = true) :
    rank bits i < rank bits j := by
  have step : rank bits (i + 1) = rank bits i + 1 := by rw [rank_succ, if_pos set]
  have : rank bits (i + 1) ≤ rank bits j := rank_le_rank (show i + 1 ≤ j by omega)
  omega

theorem rank_congr {bits bits' j : Nat} (same : ∀ i < j, bits.testBit i = bits'.testBit i) :
    rank bits j = rank bits' j := by
  induction j with
  | zero => rfl
  | succ j ih =>
    rw [rank_succ, rank_succ, ih fun i hi => same i (by omega), same j (by omega)]

/-- Setting a clear bit `s` adds one to the ranks of the positions above it. -/
theorem rank_of_setBit {bits bits' s j : Nat}
    (setBits : ∀ i, bits'.testBit i = (bits.testBit i || decide (i = s)))
    (clear : bits.testBit s = false) :
    rank bits' j = rank bits j + if s < j then 1 else 0 := by
  induction j with
  | zero => simp [rank]
  | succ j ih =>
    rw [rank_succ, rank_succ, ih, setBits j]
    by_cases js : j = s
    · subst js
      simp [clear]
    · have low : (s < j + 1) = (s < j) := propext ⟨fun h => by omega, fun h => by omega⟩
      simp only [js, decide_false, Bool.or_false, low]
      exact Nat.add_right_comm _ _ _

/-! ### Bitmap arithmetic -/

/-- The shift of `mask index`: `u16` shifts by `index` reduced to the bit width. -/
theorem mask_toNat (index : UInt8) : (mask index).toNat = 2 ^ (index.toNat % 16) := by
  have lt : 2 ^ (index.toNat % 16) < 65536 :=
    Nat.pow_lt_pow_right (n := 16) (by omega) (Nat.mod_lt _ (by omega))
  simp [mask, UInt8.toNat_toUInt16, Nat.shiftLeft_eq, Nat.mod_eq_of_lt lt]

theorem and_mask_eq_zero (bits : UInt16) (index : UInt8) :
    bits &&& mask index = 0 ↔ bits.toNat.testBit (index.toNat % 16) = false := by
  rw [← UInt16.toNat_inj, UInt16.toNat_and, mask_toNat]
  constructor
  · intro zero
    have := congrArg (fun n => n.testBit (index.toNat % 16)) zero
    simpa [Nat.testBit_and, Nat.testBit_two_pow_self] using this
  · intro clear
    apply Nat.eq_of_testBit_eq
    intro i
    by_cases same : i = index.toNat % 16
    · subst same; simp [Nat.testBit_and, clear]
    · simp [Nat.testBit_and, Ne.symm same]

theorem countOnes_and_mask_sub_one (bits : UInt16) (index : UInt8) :
    countOnes (bits &&& (mask index - 1)) = rank bits.toNat (index.toNat % 16) := by
  have small : index.toNat % 16 < 16 := Nat.mod_lt _ (by omega)
  have pos : 1 ≤ 2 ^ (index.toNat % 16) := Nat.one_le_two_pow
  have lt : 2 ^ (index.toNat % 16) < 2 ^ 16 := Nat.pow_lt_pow_right (by omega) small
  have sub : (mask index - 1).toNat = 2 ^ (index.toNat % 16) - 1 := by
    rw [UInt16.toNat_sub, mask_toNat]
    simp only [UInt16.toNat_one]
    omega
  rw [countOnes_eq_rank, UInt16.toNat_and, sub, Nat.and_two_pow_sub_one_eq_mod]
  have high : ∀ j, index.toNat % 16 ≤ j → rank (bits.toNat % 2 ^ (index.toNat % 16)) j =
      rank (bits.toNat % 2 ^ (index.toNat % 16)) (index.toNat % 16) := by
    intro j le
    induction j with
    | zero => rw [Nat.le_zero.mp le]
    | succ j ih =>
      rcases Nat.lt_or_eq_of_le le with lt' | eq
      · rw [rank_succ, ih (by omega), Nat.testBit_mod_two_pow]
        simp [show ¬ j < index.toNat % 16 by omega]
      · rw [eq]
  rw [high 16 (by omega)]
  exact rank_congr fun i hi => by simp [Nat.testBit_mod_two_pow, hi]

theorem or_mask_testBit (bits : UInt16) (index : UInt8) (i : Nat) :
    (bits ||| mask index).toNat.testBit i =
      (bits.toNat.testBit i || decide (i = index.toNat % 16)) := by
  rw [UInt16.toNat_or, mask_toNat, Nat.testBit_or, Nat.testBit_two_pow]
  by_cases h : i = index.toNat % 16 <;> simp [h, eq_comm]

theorem rank_lt_countOnes {bits : UInt16} {j : Nat} (small : j < 16)
    (set : bits.toNat.testBit j = true) : rank bits.toNat j < countOnes bits :=
  rank_lt_rank small set

theorem rank_le_countOnes (bits : UInt16) {j : Nat} (small : j ≤ 16) :
    rank bits.toNat j ≤ countOnes bits :=
  rank_le_rank small

/-- Setting a clear bit adds one present key. -/
theorem countOnes_or_mask {bits : UInt16} {index : UInt8} (clear : bits &&& mask index = 0) :
    countOnes (bits ||| mask index) = countOnes bits + 1 := by
  rw [countOnes_eq_rank, countOnes_eq_rank,
    rank_of_setBit (or_mask_testBit bits index) ((and_mask_eq_zero bits index).mp clear),
    if_pos (Nat.mod_lt _ (by omega))]

theorem insert_length (m : SmallMap V) {index : UInt8} (value : V) (clear : m.bitmap &&& mask index = 0) :
    (m.values.insertIdx (countOnes (m.bitmap &&& (mask index - 1))) value).length =
      countOnes (m.bitmap ||| mask index) := by
  rw [countOnes_or_mask clear, List.length_insertIdx_of_le_length, m.values_length]
  rw [countOnes_and_mask_sub_one, m.values_length]
  exact rank_le_countOnes _ (Nat.le_of_lt (Nat.mod_lt _ (by omega)))

/-- `SmallMap::insert`. -/
def insert (m : SmallMap V) (index : UInt8) (value : V) : SmallMap V :=
  if clear : m.bitmap &&& mask index = 0 then
    -- The index is not set currently.
    { bitmap := m.bitmap ||| mask index
      values := m.values.insertIdx (countOnes (m.bitmap &&& (mask index - 1))) value
      values_length := insert_length m value clear }
  else
    -- The index is set.
    { bitmap := m.bitmap
      values := m.values.set (countOnes (m.bitmap &&& (mask index - 1))) value
      values_length := by rw [List.length_set, m.values_length] }

/-! ### The map view -/

variable (m : SmallMap V)

/-- A present key is stored at the rank of its bit. -/
theorem get_eq (index : UInt8) :
    m.get index = if m.bitmap.toNat.testBit (index.toNat % 16) then
      m.values[rank m.bitmap.toNat (index.toNat % 16)]? else none := by
  unfold get
  rw [countOnes_and_mask_sub_one]
  by_cases set : m.bitmap.toNat.testBit (index.toNat % 16)
  · have nonzero : ¬ m.bitmap &&& mask index = 0 := by
      rw [and_mask_eq_zero, set]; decide
    rw [if_neg nonzero, if_pos set]
  · have zero : m.bitmap &&& mask index = 0 := by
      rw [and_mask_eq_zero]; simpa using set
    rw [if_pos zero, if_neg set]

theorem get_isSome_iff (index : UInt8) :
    (m.get index).isSome ↔ m.bitmap.toNat.testBit (index.toNat % 16) = true := by
  rw [get_eq m]
  split
  · next set =>
    have := rank_lt_countOnes (Nat.mod_lt _ (by omega)) set
    simp [set, List.getElem?_eq_getElem (m.values_length ▸ this)]
  · next clear => simpa using clear

theorem insert_of_clear {index : UInt8} (value : V) (small : index.toNat < 16)
    (clear : m.bitmap.toNat.testBit index.toNat = false) :
    (m.insert index value).bitmap = m.bitmap ||| mask index ∧
      (m.insert index value).values =
        m.values.insertIdx (rank m.bitmap.toNat index.toNat) value := by
  have zero : m.bitmap &&& mask index = 0 := by
    rw [and_mask_eq_zero, Nat.mod_eq_of_lt small, clear]
  simp [insert, zero, countOnes_and_mask_sub_one, Nat.mod_eq_of_lt small]

theorem insert_of_set {index : UInt8} (value : V) (small : index.toNat < 16)
    (set : m.bitmap.toNat.testBit index.toNat = true) :
    (m.insert index value).bitmap = m.bitmap ∧
      (m.insert index value).values = m.values.set (rank m.bitmap.toNat index.toNat) value := by
  have nonzero : ¬ m.bitmap &&& mask index = 0 := by
    rw [and_mask_eq_zero, Nat.mod_eq_of_lt small, set]; decide
  simp [insert, nonzero, countOnes_and_mask_sub_one, Nat.mod_eq_of_lt small]

/-- `insert` overwrites the value at its key and leaves every other key as it was. -/
theorem get_insert {i j : UInt8} (hi : i.toNat < 16) (hj : j.toNat < 16) (value : V) :
    (m.insert i value).get j = if i = j then some value else m.get j := by
  have distinct : i ≠ j → i.toNat ≠ j.toNat := fun ne eq => ne (UInt8.toNat_inj.mp eq)
  rw [get_eq, get_eq m, Nat.mod_eq_of_lt hj]
  by_cases set : m.bitmap.toNat.testBit i.toNat
  · -- the key is present: its value is replaced in place
    obtain ⟨bitmap, values⟩ := insert_of_set m value hi set
    rw [bitmap, values, List.getElem?_set]
    by_cases same : i = j
    · subst same
      simp [set, rank_lt_countOnes hi set, m.values_length]
    · by_cases setj : m.bitmap.toNat.testBit j.toNat
      · have ranks : rank m.bitmap.toNat i.toNat ≠ rank m.bitmap.toNat j.toNat := by
          rcases Nat.lt_or_gt_of_ne (distinct same) with lt | gt
          · exact Nat.ne_of_lt (rank_lt_rank lt set)
          · exact Nat.ne_of_gt (rank_lt_rank gt setj)
        simp [same, ranks]
      · simp [same, setj]
  · -- the key is absent: the bitmap gains its bit and the value is inserted at its rank
    have clear : m.bitmap.toNat.testBit i.toNat = false := by simpa using set
    obtain ⟨bitmap, values⟩ := insert_of_clear m value hi clear
    have bits : ∀ k, (m.bitmap ||| mask i).toNat.testBit k =
        (m.bitmap.toNat.testBit k || decide (k = i.toNat)) := by
      intro k; rw [or_mask_testBit, Nat.mod_eq_of_lt hi]
    rw [bitmap, values, bits, rank_of_setBit bits clear]
    by_cases same : i = j
    · subst same
      simp [List.getElem?_insertIdx_self, m.values_length, rank_le_countOnes m.bitmap (le_of_lt hi)]
    · have ne := distinct same
      by_cases setj : m.bitmap.toNat.testBit j.toNat
      · rcases Nat.lt_or_gt_of_ne ne with lt | gt
        · have above : rank m.bitmap.toNat i.toNat ≤ rank m.bitmap.toNat j.toNat :=
            rank_le_rank (Nat.le_of_lt lt)
          simp [same, setj, lt, Nat.ne_of_gt lt, List.getElem?_insertIdx_of_gt (Nat.lt_succ_of_le above)]
        · have below : rank m.bitmap.toNat j.toNat < rank m.bitmap.toNat i.toNat := rank_lt_rank gt setj
          simp [same, setj, show ¬ i.toNat < j.toNat by omega, Nat.ne_of_lt gt,
            List.getElem?_insertIdx_of_lt below]
      · simp [same, setj, Ne.symm ne]

theorem ext {m' : SmallMap V} (bitmap : m.bitmap = m'.bitmap) (values : m.values = m'.values) :
    m = m' := by
  cases m
  cases m'
  simp only at bitmap values
  subst bitmap values
  rfl

/-- Writing the value a key already has changes nothing. -/
theorem insert_eq_self {index : UInt8} {value : V} (small : index.toNat < 16)
    (found : m.get index = some value) : m.insert index value = m := by
  have set : m.bitmap.toNat.testBit index.toNat = true := by
    have present := (get_isSome_iff m index).mp (by rw [found]; rfl)
    rwa [Nat.mod_eq_of_lt small] at present
  obtain ⟨bitmap, values⟩ := insert_of_set m value small set
  rw [get_eq, Nat.mod_eq_of_lt small, if_pos set] at found
  obtain ⟨inside, atRank⟩ := List.getElem?_eq_some_iff.mp found
  apply ext _ bitmap
  rw [values, ← atRank, List.set_getElem_self]

theorem toUInt8_toNat_mod {k : Nat} (small : k < 16) : k.toUInt8.toNat % 16 = k := by
  rw [Nat.toUInt8_eq, UInt8.toNat_ofNat_of_lt' (by unfold UInt8.size; omega), Nat.mod_eq_of_lt small]

theorem mask_ne_zero_iff (bits : UInt16) {k : Nat} (small : k < 16) :
    bits &&& mask k.toUInt8 ≠ 0 ↔ bits.toNat.testBit k = true := by
  rw [Ne, and_mask_eq_zero, toUInt8_toNat_mod small]
  simp

/-- The present keys below `n`, in increasing order (`indices` stops at `16`). -/
def presentBelow (bitmap : UInt16) (n : Nat) : List UInt8 :=
  (List.range n).filterMap fun i => if bitmap &&& mask i.toUInt8 ≠ 0 then some i.toUInt8 else none

theorem indices_eq (bitmap : UInt16) : indices bitmap = presentBelow bitmap 16 := rfl

theorem presentBelow_succ (bitmap : UInt16) {n : Nat} (small : n < 16) :
    presentBelow bitmap (n + 1) =
      presentBelow bitmap n ++ if bitmap.toNat.testBit n then [n.toUInt8] else [] := by
  rw [presentBelow, List.range_succ, List.filterMap_append, ← presentBelow]
  by_cases set : bitmap.toNat.testBit n <;> simp [mask_ne_zero_iff _ small, set]

theorem length_presentBelow (bitmap : UInt16) {n : Nat} (small : n ≤ 16) :
    (presentBelow bitmap n).length = rank bitmap.toNat n := by
  induction n with
  | zero => rfl
  | succ n ih =>
    rw [presentBelow_succ _ (by omega), List.length_append, ih (by omega), rank_succ]
    by_cases set : bitmap.toNat.testBit n <;> simp [set]

/-- The first `n` present keys of the map, zipped with their values. -/
theorem zip_take_rank {n : Nat} (small : n ≤ 16) :
    (presentBelow m.bitmap n).zip (m.values.take (rank m.bitmap.toNat n)) =
    (List.range n).filterMap fun k =>
      if m.bitmap.toNat.testBit k then (m.values[rank m.bitmap.toNat k]?).map (k.toUInt8, ·)
      else none := by
  induction n with
  | zero => simp [rank, presentBelow]
  | succ n ih =>
    rw [presentBelow_succ _ (by omega), List.range_succ, List.filterMap_append, ← ih (by omega),
      rank_succ]
    by_cases set : m.bitmap.toNat.testBit n
    · have inside : rank m.bitmap.toNat n < m.values.length := by
        rw [m.values_length]; exact rank_lt_countOnes (by omega) set
      have lengths : (presentBelow m.bitmap n).length =
          (m.values.take (rank m.bitmap.toNat n)).length := by
        rw [length_presentBelow _ (by omega), List.length_take, Nat.min_eq_left (Nat.le_of_lt inside)]
      rw [if_pos set, if_pos set, List.take_add_one, List.zip_append lengths]
      simp [set, List.getElem?_eq_getElem inside]
    · simp [set]

/-- `iter` lists the present keys in increasing order with their values. -/
theorem iter_eq :
    m.iter = (List.range 16).filterMap fun k => (m.get k.toUInt8).map (k.toUInt8, ·) := by
  have full : m.values.take (rank m.bitmap.toNat 16) = m.values := by
    rw [← countOnes_eq_rank, ← m.values_length, List.take_length]
  rw [iter, indices_eq, ← full, zip_take_rank m (Nat.le_refl 16)]
  apply List.filterMap_congr
  intro k member
  rw [get_eq, toUInt8_toNat_mod (List.mem_range.mp member)]
  split <;> rfl

@[simp] theorem get_empty (index : UInt8) : (empty : SmallMap V).get index = none := by
  simp [get, empty]

end SmallMap

end ZksyncEra.MerkleTree
