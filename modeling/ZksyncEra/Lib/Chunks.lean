import Mathlib

/-!
Splitting a list into consecutive pieces of a fixed size, the last one possibly shorter, as
`slice::chunks` does. The recursion runs on fuel, one unit per piece, so that the definition
computes; the length of the list is always enough. Splitting a concatenation of full pieces gives
the pieces back, and flattening the pieces gives the list back. In a concatenation of full pieces
the `i`-th piece is the window at offset `i * size`.
-/

namespace List

variable {α : Type}

/-- At most `fuel` consecutive pieces of `size` elements. -/
def chunksFuel (size : Nat) : Nat → List α → List (List α)
  | 0, _ => []
  | _ + 1, [] => []
  | fuel + 1, x :: xs => (x :: xs).take size :: chunksFuel size fuel ((x :: xs).drop size)

/-- `slice::chunks(size)`: consecutive pieces of `size` elements, the last one possibly shorter. -/
def chunks (size : Nat) (xs : List α) : List (List α) := chunksFuel size xs.length xs

/-- Fuel beyond the length of the list changes nothing. -/
theorem chunksFuel_sufficient {size : Nat} (positive : 0 < size) (fuel other : Nat) (xs : List α)
    (enough : xs.length ≤ fuel) (otherEnough : xs.length ≤ other) :
    chunksFuel size fuel xs = chunksFuel size other xs := by
  induction fuel generalizing other xs with
  | zero =>
    rw [Nat.le_zero, length_eq_zero_iff] at enough
    subst enough
    cases other <;> rfl
  | succ fuel ih =>
    cases xs with
    | nil => cases other <;> rfl
    | cons x rest =>
      cases other with
      | zero => simp at otherEnough
      | succ other =>
        simp only [chunksFuel]
        -- each piece takes at least one element, so the rest needs one unit of fuel less
        congr 1
        apply ih
        · simp only [length_drop, length_cons] at enough ⊢
          omega
        · simp only [length_drop, length_cons] at otherEnough ⊢
          omega

@[simp] theorem chunks_nil (size : Nat) : chunks size ([] : List α) = [] := rfl

theorem chunks_of_ne_nil {size : Nat} (positive : 0 < size) {xs : List α} (nonempty : xs ≠ []) :
    chunks size xs = xs.take size :: chunks size (xs.drop size) := by
  obtain ⟨x, rest, rfl⟩ := exists_cons_of_ne_nil nonempty
  simp only [chunks, length_cons, chunksFuel]
  congr 1
  apply chunksFuel_sufficient positive <;> simp only [length_drop, length_cons] <;> omega

/-- A full piece in front is split off as it is. -/
theorem chunks_append_of_length {size : Nat} (positive : 0 < size) {front : List α}
    (full : front.length = size) (back : List α) :
    chunks size (front ++ back) = front :: chunks size back := by
  have nonempty : front ++ back ≠ [] := by
    intro empty
    have := congrArg length empty
    simp only [length_append, length_nil] at this
    omega
  rw [chunks_of_ne_nil positive nonempty, take_append_of_le_length (Nat.le_of_eq full.symm),
    take_of_length_le (Nat.le_of_eq full), drop_append_of_le_length (Nat.le_of_eq full.symm),
    drop_of_length_le (Nat.le_of_eq full), nil_append]

/-- Splitting full pieces put together gives the pieces back. -/
theorem chunks_flatten {size : Nat} (positive : 0 < size) (pieces : List (List α))
    (full : ∀ piece ∈ pieces, piece.length = size) : chunks size pieces.flatten = pieces := by
  induction pieces with
  | nil => rfl
  | cons piece rest ih =>
    rw [flatten_cons, chunks_append_of_length positive (full piece mem_cons_self),
      ih fun other member => full other (mem_cons_of_mem piece member)]

theorem flatten_chunksFuel {size : Nat} (positive : 0 < size) (fuel : Nat) (xs : List α)
    (enough : xs.length ≤ fuel) : (chunksFuel size fuel xs).flatten = xs := by
  induction fuel generalizing xs with
  | zero =>
    rw [Nat.le_zero, length_eq_zero_iff] at enough
    subst enough
    rfl
  | succ fuel ih =>
    cases xs with
    | nil => rfl
    | cons x rest =>
      simp only [chunksFuel, flatten_cons]
      rw [ih _ (by simp only [length_drop, length_cons] at enough ⊢; omega), take_append_drop]

/-- The pieces put together are the list. -/
theorem flatten_chunks {size : Nat} (positive : 0 < size) (xs : List α) :
    (chunks size xs).flatten = xs :=
  flatten_chunksFuel positive xs.length xs (Nat.le_refl _)

/-- A list of `size * k` elements splits into `k` full pieces. -/
theorem chunks_full {size : Nat} (positive : 0 < size) (k : Nat) (xs : List α)
    (length : xs.length = size * k) :
    (chunks size xs).length = k ∧ ∀ piece ∈ chunks size xs, piece.length = size := by
  induction k generalizing xs with
  | zero =>
    rw [Nat.mul_zero, length_eq_zero_iff] at length
    subst length
    simp
  | succ k ih =>
    have nonempty : xs ≠ [] := by
      intro empty
      rw [empty, length_nil, Nat.mul_succ] at length
      omega
    obtain ⟨restLength, restFull⟩ := ih (xs.drop size) (by
      rw [length_drop, length, Nat.mul_succ]
      omega)
    rw [chunks_of_ne_nil positive nonempty]
    refine ⟨by rw [length_cons, restLength], fun piece member => ?_⟩
    rcases mem_cons.mp member with front | back
    · rw [front, length_take, length, Nat.mul_succ]
      omega
    · exact restFull piece back

/-- Full pieces put together are as long as all of them. -/
theorem length_flatten_of_full {size : Nat} :
    ∀ (pieces : List (List α)), (∀ piece ∈ pieces, piece.length = size) →
      pieces.flatten.length = pieces.length * size
  | [], _ => by rw [flatten_nil, length_nil, length_nil, Nat.zero_mul]
  | piece :: rest, full => by
    rw [flatten_cons, length_append, full piece mem_cons_self,
      length_flatten_of_full rest fun other member => full other (mem_cons_of_mem piece member),
      length_cons, Nat.succ_mul, Nat.add_comm]

/-- The `i`-th of full pieces put together is read back at offset `i * size`, whatever follows
them. -/
theorem take_drop_flatten_append {size : Nat} :
    ∀ (pieces : List (List α)), (∀ piece ∈ pieces, piece.length = size) →
      ∀ (tail : List α) (i : Nat) (inside : i < pieces.length),
        ((pieces.flatten ++ tail).drop (i * size)).take size = pieces[i]
  | [], _, _, i, inside => absurd inside (Nat.not_lt_zero i)
  | piece :: rest, full, tail, 0, _ => by
    rw [Nat.zero_mul, drop_zero, flatten_cons, append_assoc, take_left' (full piece mem_cons_self),
      getElem_cons_zero]
  | piece :: rest, full, tail, i + 1, inside => by
    have later : i < rest.length := by
      rw [length_cons] at inside
      omega
    -- the first piece is skipped whole, the offset then counts from the second
    rw [Nat.succ_mul, Nat.add_comm, ← drop_drop, flatten_cons, append_assoc,
      drop_left' (full piece mem_cons_self), getElem_cons_succ,
      take_drop_flatten_append rest (fun other member => full other (mem_cons_of_mem piece member))
        tail i later]

end List
