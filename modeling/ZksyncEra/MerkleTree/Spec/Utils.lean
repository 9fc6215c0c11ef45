import ZksyncEra.Lib.Lists
import ZksyncEra.MerkleTree.Proofs

/-!
`SmallMap` as a finite map on `0..16` over any sequence of inserts, and `merge_by_index` as a
merge of parts ordered by index (`utils.rs`).

The map view is read off `get`: `get_insert` gives the last insert at a key, `iter_eq` the
present keys in increasing order, and `last_eq_getLast_iter` puts the greatest set bit of the
bitmap beside the last value. The merge is followed step by step: each `MergingIter::next` takes
the head whose index is least among the heads of the parts, and the parts stay ordered.
-/

namespace ZksyncEra.MerkleTree

namespace SmallMap

variable {V : Type}

/-- The inserts of a sequence, one after the other. -/
def insertAll (m : SmallMap V) (inserts : List (UInt8 × V)) : SmallMap V :=
  inserts.foldl (fun m insert => m.insert insert.1 insert.2) m

/-- The value last inserted at `index`, if any. -/
def lastInserted (inserts : List (UInt8 × V)) (index : UInt8) : Option V :=
  (inserts.reverse.find? fun insert => insert.1 = index).map Prod.snd

theorem insertAll_append_singleton (m : SmallMap V) (inserts : List (UInt8 × V)) (insert : UInt8 × V) :
    m.insertAll (inserts ++ [insert]) = (m.insertAll inserts).insert insert.1 insert.2 := by
  simp [insertAll]

theorem lastInserted_append_singleton (inserts : List (UInt8 × V)) (insert : UInt8 × V) (index : UInt8) :
    lastInserted (inserts ++ [insert]) index =
      if insert.1 = index then some insert.2 else lastInserted inserts index := by
  by_cases same : insert.1 = index <;> simp [lastInserted, same]

theorem isSome_lastInserted_iff (inserts : List (UInt8 × V)) (index : UInt8) :
    (lastInserted inserts index).isSome ↔ ∃ insert ∈ inserts, insert.1 = index := by
  simp [lastInserted, List.find?_isSome]

theorem getMut_eq_get (m : SmallMap V) (index : UInt8) : m.getMut index = m.get index := rfl

/-- After a sequence of inserts, a key holds the value last inserted at it, or else its old
value. -/
theorem get_insertAll (m : SmallMap V) {inserts : List (UInt8 × V)}
    (small : ∀ insert ∈ inserts, insert.1.toNat < 16) {index : UInt8} (inside : index.toNat < 16) :
    (m.insertAll inserts).get index = (lastInserted inserts index).or (m.get index) := by
  induction inserts using List.reverseRecOn with
  | nil => rfl
  | append_singleton inserts insert ih =>
    have earlier := ih fun x member => small x (List.mem_append_left _ member)
    rw [insertAll_append_singleton, get_insert _ (small insert (by simp)) inside,
      lastInserted_append_singleton]
    split
    · rfl
    · exact earlier

theorem get_empty_insertAll {inserts : List (UInt8 × V)}
    (small : ∀ insert ∈ inserts, insert.1.toNat < 16) {index : UInt8} (inside : index.toNat < 16) :
    ((empty : SmallMap V).insertAll inserts).get index = lastInserted inserts index := by
  rw [get_insertAll _ small inside, get_empty, Option.or_none]

/-! ### Iteration -/

theorem toNat_toUInt8_of_lt {k : Nat} (small : k < 16) : k.toUInt8.toNat = k := by
  rw [Nat.toUInt8_eq, UInt8.toNat_ofNat_of_lt' (by unfold UInt8.size; omega)]

/-- `iter` yields the present keys in strictly increasing order. -/
theorem iter_pairwise (m : SmallMap V) : m.iter.Pairwise fun a b => a.1 < b.1 := by
  rw [iter_eq]
  apply List.Pairwise.filterMap _ _ (List.Pairwise.and_mem.mp List.pairwise_lt_range)
  rintro k k' ⟨member, member', lt⟩ item found item' found'
  obtain ⟨_, _, rfl⟩ := Option.map_eq_some_iff.mp found
  obtain ⟨_, _, rfl⟩ := Option.map_eq_some_iff.mp found'
  rw [UInt8.lt_iff_toNat_lt, toNat_toUInt8_of_lt (List.mem_range.mp member),
    toNat_toUInt8_of_lt (List.mem_range.mp member')]
  exact lt

theorem mem_iter (m : SmallMap V) {index : UInt8} {value : V} :
    (index, value) ∈ m.iter ↔ index.toNat < 16 ∧ m.get index = some value := by
  rw [iter_eq, List.mem_filterMap]
  constructor
  · rintro ⟨k, member, found⟩
    have small := List.mem_range.mp member
    obtain ⟨v, got, same⟩ := Option.map_eq_some_iff.mp found
    obtain ⟨rfl, rfl⟩ := Prod.mk.inj same
    exact ⟨by rw [toNat_toUInt8_of_lt small]; exact small, got⟩
  · rintro ⟨small, got⟩
    refine ⟨index.toNat, List.mem_range.mpr small, ?_⟩
    rw [Nat.toUInt8_eq, UInt8.ofNat_toNat, got]
    rfl

theorem length_indices (bitmap : UInt16) : (indices bitmap).length = countOnes bitmap := by
  rw [indices_eq, length_presentBelow _ (Nat.le_refl 16)]
  rfl

theorem len_eq_length_iter (m : SmallMap V) : m.len = m.iter.length := by
  rw [iter, List.length_zip, length_indices, m.values_length, Nat.min_self]
  rfl

/-- No key is present above the greatest set bit of the bitmap. -/
theorem presentBelow_of_clear (bitmap : UInt16) {n : Nat} (k : Nat) (small : n + k ≤ 16)
    (clear : ∀ j, n ≤ j → j < n + k → bitmap.toNat.testBit j = false) :
    presentBelow bitmap (n + k) = presentBelow bitmap n := by
  induction k with
  | zero => rfl
  | succ k ih =>
    rw [← Nat.add_assoc, presentBelow_succ _ (by omega), if_neg (by simp [clear (n + k) (by omega) (by omega)]),
      List.append_nil, ih (by omega) fun j low high => clear j low (by omega)]

/-- The last present key is the greatest set bit, `log2` of the bitmap. -/
theorem indices_of_ne_zero {bitmap : UInt16} (nonzero : bitmap.toNat ≠ 0) :
    indices bitmap = presentBelow bitmap bitmap.toNat.log2 ++ [bitmap.toNat.log2.toUInt8] := by
  have top : bitmap.toNat.log2 < 16 := (Nat.log2_lt nonzero).mpr bitmap.toNat_lt
  have above : ∀ j, bitmap.toNat.log2 + 1 ≤ j → bitmap.toNat.testBit j = false := by
    intro j le
    apply Nat.testBit_lt_two_pow
    exact Nat.lt_of_lt_of_le Nat.lt_log2_self (Nat.pow_le_pow_right (by omega) le)
  rw [indices_eq, show 16 = bitmap.toNat.log2 + 1 + (15 - bitmap.toNat.log2) by omega,
    presentBelow_of_clear _ _ (by omega) fun j low _ => above j low,
    presentBelow_succ _ top, if_pos (Nat.testBit_log2 nonzero)]

/-- `last` is the last item of `iter`. -/
theorem last_eq_getLast_iter (m : SmallMap V) : m.last = m.iter.getLast? := by
  by_cases zero : m.bitmap = 0
  · -- no key: no set bit and no value
    have noValues : m.values = [] := List.eq_nil_of_length_eq_zero (by rw [m.values_length, zero]; rfl)
    simp [last, leadingZeros, zero, iter, noValues]
  · have nonzero : m.bitmap.toNat ≠ 0 := fun eq => zero (UInt16.toNat_inj.mp eq)
    have top : m.bitmap.toNat.log2 < 16 := (Nat.log2_lt nonzero).mpr m.bitmap.toNat_lt
    have greatest : 16 - leadingZeros m.bitmap = m.bitmap.toNat.log2 + 1 := by
      rw [leadingZeros, if_neg zero]
      omega
    -- the values split as the present keys do: the last one belongs to the greatest key
    have count : m.values.length = (presentBelow m.bitmap m.bitmap.toNat.log2).length + 1 := by
      rw [m.values_length, ← length_indices, indices_of_ne_zero nonzero, List.length_append]
      rfl
    obtain ⟨front, value, split⟩ : ∃ front value, m.values = front ++ [value] := by
      rcases List.eq_nil_or_concat m.values with empty | ⟨front, value, split⟩
      · rw [empty] at count
        exact absurd count (by simp)
      · exact ⟨front, value, by rw [split, List.concat_eq_append]⟩
    have lengths : (presentBelow m.bitmap m.bitmap.toNat.log2).length = front.length := by
      rw [split, List.length_append] at count
      simpa using count.symm
    rw [last, iter, indices_of_ne_zero nonzero, split, List.zip_append lengths, greatest]
    simp

/-! ### The map built by a sequence of inserts -/

section Inserts

variable {inserts : List (UInt8 × V)} (small : ∀ insert ∈ inserts, insert.1.toNat < 16)
include small

theorem mem_iter_insertAll {index : UInt8} {value : V} :
    (index, value) ∈ ((empty : SmallMap V).insertAll inserts).iter ↔
      lastInserted inserts index = some value := by
  rw [mem_iter]
  constructor
  · rintro ⟨inside, got⟩
    rwa [get_empty_insertAll small inside] at got
  · intro found
    obtain ⟨insert, member, rfl⟩ := (isSome_lastInserted_iff inserts index).mp (by rw [found]; rfl)
    have inside := small insert member
    exact ⟨inside, by rw [get_empty_insertAll small inside, found]⟩

theorem mem_keys_iter_insertAll {index : UInt8} :
    (∃ item ∈ ((empty : SmallMap V).insertAll inserts).iter, item.1 = index) ↔
      ∃ insert ∈ inserts, insert.1 = index := by
  constructor
  · rintro ⟨⟨key, value⟩, member, rfl⟩
    exact (isSome_lastInserted_iff inserts key).mp (by rw [(mem_iter_insertAll small).mp member]; rfl)
  · intro inserted
    obtain ⟨value, found⟩ := Option.isSome_iff_exists.mp ((isSome_lastInserted_iff inserts index).mpr inserted)
    exact ⟨(index, value), (mem_iter_insertAll small).mpr found, rfl⟩

/-- The map holds one entry per distinct key inserted. -/
theorem len_insertAll :
    ((empty : SmallMap V).insertAll inserts).len = (inserts.map Prod.fst).toFinset.card := by
  set m := (empty : SmallMap V).insertAll inserts
  have nodup : (m.iter.map Prod.fst).Nodup :=
    (List.pairwise_map.mpr (iter_pairwise m)).imp fun lt same => by rw [same] at lt; exact UInt8.lt_irrefl _ lt
  rw [len_eq_length_iter, ← List.length_map Prod.fst, ← List.toFinset_card_of_nodup nodup]
  congr 1
  ext index
  rw [List.mem_toFinset, List.mem_toFinset, List.mem_map, List.mem_map]
  exact mem_keys_iter_insertAll small

/-- `last` gives the greatest key inserted, with the value last inserted at it. -/
theorem last_insertAll_eq_some_iff {index : UInt8} {value : V} :
    ((empty : SmallMap V).insertAll inserts).last = some (index, value) ↔
      lastInserted inserts index = some value ∧ ∀ insert ∈ inserts, insert.1 ≤ index := by
  have sorted : ((empty : SmallMap V).insertAll inserts).iter.Pairwise
      fun a b => a.1.toNat < b.1.toNat :=
    (iter_pairwise _).imp fun lt => UInt8.lt_iff_toNat_lt.mp lt
  rw [last_eq_getLast_iter, List.getLast?_eq_some_iff_of_pairwise sorted, mem_iter_insertAll small]
  refine and_congr_right fun _ => ⟨?_, ?_⟩
  · intro greatest insert member
    obtain ⟨other, found⟩ := Option.isSome_iff_exists.mp
      ((isSome_lastInserted_iff inserts insert.1).mpr ⟨insert, member, rfl⟩)
    exact UInt8.le_iff_toNat_le.mpr (greatest (insert.1, other) ((mem_iter_insertAll small).mpr found))
  · rintro greatest ⟨key, other⟩ member
    obtain ⟨insert, inserted, rfl⟩ := (isSome_lastInserted_iff inserts key).mp
      (by rw [(mem_iter_insertAll small).mp member]; rfl)
    exact UInt8.le_iff_toNat_le.mp (greatest insert inserted)

theorem last_insertAll_eq_none_iff :
    ((empty : SmallMap V).insertAll inserts).last = none ↔ inserts = [] := by
  rw [last_eq_getLast_iter, List.getLast?_eq_none_iff]
  constructor
  · intro noItems
    cases inserts with
    | nil => rfl
    | cons insert rest =>
      obtain ⟨item, found, _⟩ := (mem_keys_iter_insertAll small).mpr ⟨insert, List.mem_cons_self, rfl⟩
      rw [noItems] at found
      exact absurd found List.not_mem_nil
  · rintro rfl
    exact List.eq_nil_of_length_eq_zero (by simp [← len_eq_length_iter, insertAll, len, empty, countOnes])

end Inserts

end SmallMap

/-! ### Merging parts ordered by index -/

section Merge

variable {T : Type}

/-- The items of the parts, each behind the index of its part, counted from `start`. -/
def tagItems : Nat → List (List (Nat × T)) → List (Nat × Nat × T)
  | _, [] => []
  | start, part :: parts => part.map (fun item => (start, item)) ++ tagItems (start + 1) parts

theorem length_tagItems (start : Nat) (parts : List (List (Nat × T))) :
    (tagItems start parts).length = (parts.map List.length).sum := by
  induction parts generalizing start with
  | nil => rfl
  | cons part parts ih => simp [tagItems, ih]

theorem mem_parts_of_mem_tagItems {start : Nat} {parts : List (List (Nat × T))} {tagged : Nat × Nat × T}
    (member : tagged ∈ tagItems start parts) : ∃ part ∈ parts, tagged.2 ∈ part := by
  induction parts generalizing start with
  | nil => exact absurd member List.not_mem_nil
  | cons part parts ih =>
    rcases List.mem_append.mp member with here | later
    · obtain ⟨item, inPart, rfl⟩ := List.mem_map.mp here
      exact ⟨part, List.mem_cons_self, inPart⟩
    · obtain ⟨other, inParts, inOther⟩ := ih later
      exact ⟨other, List.mem_cons_of_mem _ inParts, inOther⟩

theorem tagItems_of_empty {start : Nat} {parts : List (List (Nat × T))}
    (empty : ∀ part ∈ parts, part = []) : tagItems start parts = [] := by
  induction parts generalizing start with
  | nil => rfl
  | cons part parts ih =>
    rw [tagItems, empty part List.mem_cons_self, ih fun other member => empty other (List.mem_cons_of_mem _ member)]
    rfl

/-- Taking the head of part `p` takes one tagged item out. -/
theorem perm_tagItems_set {parts : List (List (Nat × T))} {p : Nat} {item : Nat × T}
    {rest : List (Nat × T)} (start : Nat) (found : parts[p]? = some (item :: rest)) :
    (tagItems start parts).Perm ((start + p, item) :: tagItems start (parts.set p rest)) := by
  induction parts generalizing p start with
  | nil => exact absurd found (by simp)
  | cons part parts ih =>
    cases p with
    | zero =>
      obtain rfl : part = item :: rest := by simpa using found
      exact List.Perm.refl _
    | succ p =>
      have later := ih (start + 1) (by simpa using found)
      rw [List.set_cons_succ, tagItems, tagItems, show start + 1 + p = start + (p + 1) by omega] at *
      exact (later.append_left _).trans List.perm_middle

/-- `Iterator::min_by_key` finds a member whose key is least. -/
theorem minByKey?_spec {α : Type} (key : α → Nat) {l : List α} {x : α} (found : minByKey? key l = some x) :
    x ∈ l ∧ ∀ y ∈ l, key x ≤ key y := by
  -- the fold keeps a member of the list seen so far whose key is least
  have fold : ∀ (rest : List α) (best : α),
      let result := rest.foldl (fun best y => if key y < key best then y else best) best
      (result = best ∨ result ∈ rest) ∧ key result ≤ key best ∧ ∀ y ∈ rest, key result ≤ key y := by
    intro rest
    induction rest with
    | nil => intro best; simp
    | cons y rest ih =>
      intro best
      by_cases lt : key y < key best
      · -- `y` becomes the best so far
        obtain ⟨same, belowY, belowRest⟩ := ih y
        simp only [List.foldl_cons, if_pos lt, List.mem_cons, forall_eq_or_imp]
        refine ⟨?_, by omega, belowY, belowRest⟩
        rcases same with same | member
        · exact Or.inr (Or.inl same)
        · exact Or.inr (Or.inr member)
      · obtain ⟨same, belowBest, belowRest⟩ := ih best
        simp only [List.foldl_cons, if_neg lt, List.mem_cons, forall_eq_or_imp]
        refine ⟨?_, belowBest, by omega, belowRest⟩
        rcases same with same | member
        · exact Or.inl same
        · exact Or.inr (Or.inr member)
  cases l with
  | nil => exact absurd found (by simp [minByKey?])
  | cons first rest =>
    simp only [minByKey?, Option.some.injEq] at found
    obtain ⟨same, belowFirst, belowRest⟩ := fold rest first
    rw [found] at same belowFirst belowRest
    refine ⟨?_, ?_⟩
    · rcases same with rfl | member
      · exact List.mem_cons_self
      · exact List.mem_cons_of_mem _ member
    · simpa [belowFirst] using belowRest

theorem minByKey?_isSome {α : Type} (key : α → Nat) {l : List α} (nonempty : l ≠ []) :
    (minByKey? key l).isSome := by
  cases l with
  | nil => exact absurd rfl nonempty
  | cons first rest => rfl

/-- The heads of the parts, each with the index of its part. -/
theorem mem_heads {parts : List (List (Nat × T))} {q : Nat} {head : Nat × T} :
    (q, head) ∈ parts.zipIdx.filterMap (fun x => x.1.head?.map fun next => (x.2, next)) ↔
      ∃ part, parts[q]? = some part ∧ part.head? = some head := by
  rw [List.mem_filterMap]
  constructor
  · rintro ⟨⟨part, idx⟩, member, found⟩
    obtain ⟨next, first, same⟩ := Option.map_eq_some_iff.mp found
    obtain ⟨rfl, rfl⟩ := Prod.mk.inj same
    exact ⟨part, List.mem_zipIdx_iff_getElem?.mp member, first⟩
  · rintro ⟨part, found, head⟩
    exact ⟨(part, q), List.mem_zipIdx_iff_getElem?.mpr found, by rw [head]; rfl⟩

/-- A step of the merge takes the head of a part whose index is least among the heads. -/
theorem MergingIter.next_eq_some {parts parts' : List (List (Nat × T))} {p : Nat} {item : T}
    (next : MergingIter.next parts = some ((p, item), parts')) :
    ∃ i rest, parts[p]? = some ((i, item) :: rest) ∧ parts' = parts.set p rest ∧
      ∀ part ∈ parts, ∀ head ∈ part.head?, i ≤ head.1 := by
  unfold MergingIter.next at next
  generalize headsEq : parts.zipIdx.filterMap (fun x => x.1.head?.map fun next => (x.2, next)) = heads at next
  simp only [Option.bind_eq_bind] at next
  cases least : minByKey? (fun item => item.2.1) heads with
  | none => rw [least] at next; exact absurd next (by simp)
  | some least' =>
    obtain ⟨q, i, first⟩ := least'
    obtain ⟨member, lowest⟩ := minByKey?_spec _ least
    obtain ⟨part, found, head⟩ := mem_heads.mp (headsEq ▸ member)
    obtain ⟨rest, rfl⟩ : ∃ rest, part = (i, first) :: rest := by
      cases part with
      | nil => exact absurd head (by simp)
      | cons x rest => exact ⟨rest, by simpa using head⟩
    rw [least] at next
    simp only [Option.bind_some, found, Option.some.injEq, Prod.mk.injEq] at next
    obtain ⟨⟨rfl, rfl⟩, rfl⟩ := next
    refine ⟨i, rest, found, rfl, ?_⟩
    intro other inParts head' inHead
    obtain ⟨r, inRange, rfl⟩ := List.getElem_of_mem inParts
    exact lowest (r, head') (headsEq ▸ mem_heads.mpr ⟨_, List.getElem?_eq_getElem inRange, inHead⟩)

theorem MergingIter.next_isSome {parts : List (List (Nat × T))} (nonempty : ∃ part ∈ parts, part ≠ []) :
    (MergingIter.next parts).isSome := by
  obtain ⟨part, member, notNil⟩ := nonempty
  obtain ⟨r, inRange, rfl⟩ := List.getElem_of_mem member
  obtain ⟨first, rest, split⟩ := List.exists_cons_of_ne_nil notNil
  have hasHead : (r, first) ∈ parts.zipIdx.filterMap (fun x => x.1.head?.map fun next => (x.2, next)) :=
    mem_heads.mpr ⟨_, List.getElem?_eq_getElem inRange, by rw [split]; rfl⟩
  unfold MergingIter.next
  obtain ⟨⟨q, i, item⟩, least⟩ := Option.isSome_iff_exists.mp
    (minByKey?_isSome (fun item => item.2.1) (List.ne_nil_of_mem hasHead))
  obtain ⟨member', _⟩ := minByKey?_spec _ least
  obtain ⟨part', found, head⟩ := mem_heads.mp member'
  obtain ⟨rest', rfl⟩ : ∃ rest', part' = (i, item) :: rest' := by
    cases part' with
    | nil => exact absurd head (by simp)
    | cons x rest' => exact ⟨rest', by simpa using head⟩
  simp [least, found]

/-- Every item of an ordered part comes at or after its head. -/
theorem le_of_mem_of_head {part : List (Nat × T)} {i : Nat} (sorted : part.Pairwise fun a b => a.1 ≤ b.1)
    (least : ∀ head ∈ part.head?, i ≤ head.1) : ∀ item ∈ part, i ≤ item.1 := by
  cases part with
  | nil => simp
  | cons head rest =>
    have first := least head rfl
    intro item member
    rcases List.mem_cons.mp member with rfl | later
    · exact first
    · exact Nat.le_trans first (List.rel_of_pairwise_cons sorted later)

/-- The run of the merge: with enough steps, it lists every tagged item once, in order of
index. -/
theorem mergingIter_perm_sorted (fuel : Nat) {parts : List (List (Nat × T))}
    (sorted : ∀ part ∈ parts, part.Pairwise fun a b => a.1 ≤ b.1)
    (enough : (tagItems 0 parts).length ≤ fuel) :
    ∃ merged : List (Nat × Nat × T), merged.Perm (tagItems 0 parts) ∧
      merged.Pairwise (fun a b => a.2.1 ≤ b.2.1) ∧
      mergingIter fuel parts = merged.map fun tagged => (tagged.1, tagged.2.2) := by
  induction fuel generalizing parts with
  | zero =>
    rw [List.eq_nil_of_length_eq_zero (Nat.le_zero.mp enough)]
    exact ⟨[], List.Perm.refl _, List.Pairwise.nil, rfl⟩
  | succ fuel ih =>
    cases next : MergingIter.next parts with
    | none =>
      -- nothing left in any part
      have empty : ∀ part ∈ parts, part = [] := by
        intro part member
        by_contra notNil
        have := MergingIter.next_isSome ⟨part, member, notNil⟩
        rw [next] at this
        exact absurd this (by simp)
      rw [tagItems_of_empty empty]
      refine ⟨[], List.Perm.refl _, List.Pairwise.nil, ?_⟩
      rw [mergingIter, next]
      rfl
    | some step =>
      obtain ⟨⟨p, item⟩, parts'⟩ := step
      obtain ⟨i, rest, found, rfl, least⟩ := MergingIter.next_eq_some next
      have taken := perm_tagItems_set 0 found
      rw [Nat.zero_add] at taken
      -- the parts stay ordered, and nothing left comes before the item taken
      have sorted' : ∀ part ∈ parts.set p rest, part.Pairwise fun a b => a.1 ≤ b.1 := by
        intro part member
        rcases List.mem_or_eq_of_mem_set member with inParts | rfl
        · exact sorted part inParts
        · exact (List.pairwise_cons.mp (sorted _ (List.mem_of_getElem? found))).2
      have later : ∀ part ∈ parts.set p rest, ∀ other ∈ part, i ≤ other.1 := by
        intro part member
        rcases List.mem_or_eq_of_mem_set member with inParts | rfl
        · exact le_of_mem_of_head (sorted part inParts) (least part inParts)
        · exact fun other inRest =>
            List.rel_of_pairwise_cons (sorted _ (List.mem_of_getElem? found)) inRest
      have fewer : (tagItems 0 (parts.set p rest)).length ≤ fuel := by
        have := taken.length_eq
        simp only [List.length_cons] at this
        omega
      obtain ⟨merged, perm, ordered, run⟩ := ih sorted' fewer
      refine ⟨(p, i, item) :: merged, (perm.cons _).trans taken.symm, ?_, ?_⟩
      · refine List.pairwise_cons.mpr ⟨?_, ordered⟩
        intro tagged member
        obtain ⟨part, inParts, inPart⟩ := mem_parts_of_mem_tagItems (perm.subset member)
        exact later part inParts tagged.2 inPart
      · rw [mergingIter, next]
        simp [run]

/-- `merge_by_index` lists every item of the ordered parts once, with its part, in order of
index. -/
theorem mergeByIndex_perm_sorted {parts : List (List (Nat × T))}
    (sorted : ∀ part ∈ parts, part.Pairwise fun a b => a.1 ≤ b.1) :
    ∃ merged : List (Nat × Nat × T), merged.Perm (tagItems 0 parts) ∧
      merged.Pairwise (fun a b => a.2.1 ≤ b.2.1) ∧
      mergeByIndex parts = merged.map fun tagged => (tagged.1, tagged.2.2) :=
  mergingIter_perm_sorted _ sorted (by rw [length_tagItems])

end Merge

/-- `SmallMap` is a finite map on `0..16` over any sequence of inserts, and `merge_by_index`
lists the items of ordered parts once each, with their parts, in order of index. -/
theorem smallMap_finiteMap_mergeByIndex :
    (∀ (V : Type) (inserts : List (UInt8 × V)), (∀ insert ∈ inserts, insert.1.toNat < 16) →
      let m := (SmallMap.empty : SmallMap V).insertAll inserts
      (∀ index : UInt8, index.toNat < 16 →
        m.get index = SmallMap.lastInserted inserts index ∧
          m.getMut index = SmallMap.lastInserted inserts index) ∧
      m.len = (inserts.map Prod.fst).toFinset.card ∧
      m.iter.Pairwise (fun a b => a.1 < b.1) ∧
      (∀ index value, (index, value) ∈ m.iter ↔ SmallMap.lastInserted inserts index = some value) ∧
      (∀ index value, m.last = some (index, value) ↔
        SmallMap.lastInserted inserts index = some value ∧ ∀ insert ∈ inserts, insert.1 ≤ index) ∧
      (m.last = none ↔ inserts = [])) ∧
    (∀ (T : Type) (parts : List (List (Nat × T))), (∀ part ∈ parts, part.Pairwise fun a b => a.1 ≤ b.1) →
      ∃ merged : List (Nat × Nat × T), merged.Perm (tagItems 0 parts) ∧
        merged.Pairwise (fun a b => a.2.1 ≤ b.2.1) ∧
        mergeByIndex parts = merged.map fun tagged => (tagged.1, tagged.2.2)) := by
  refine ⟨fun V inserts small => ?_, fun T parts sorted => mergeByIndex_perm_sorted sorted⟩
  have got := fun index (inside : UInt8.toNat index < 16) => SmallMap.get_empty_insertAll small inside
  exact ⟨fun index inside => ⟨got index inside, (SmallMap.getMut_eq_get _ index).trans (got index inside)⟩,
    SmallMap.len_insertAll small, SmallMap.iter_pairwise _, fun _ _ => SmallMap.mem_iter_insertAll small,
    fun _ _ => SmallMap.last_insertAll_eq_some_iff small, SmallMap.last_insertAll_eq_none_iff small⟩

theorem smallMap_finiteMap_mergeByIndex_overwrite :
    (∀ insert ∈ ([(3, 7), (1, 2), (3, 9)] : List (UInt8 × Nat)), insert.1.toNat < 16) ∧
    ((∀ index : UInt8, index.toNat < 16 →
        ((SmallMap.empty : SmallMap Nat).insertAll [(3, 7), (1, 2), (3, 9)]).get index =
            SmallMap.lastInserted [(3, 7), (1, 2), (3, 9)] index ∧
          ((SmallMap.empty : SmallMap Nat).insertAll [(3, 7), (1, 2), (3, 9)]).getMut index =
            SmallMap.lastInserted [(3, 7), (1, 2), (3, 9)] index) ∧
      ((SmallMap.empty : SmallMap Nat).insertAll [(3, 7), (1, 2), (3, 9)]).len =
        (([(3, 7), (1, 2), (3, 9)] : List (UInt8 × Nat)).map Prod.fst).toFinset.card ∧
      ((SmallMap.empty : SmallMap Nat).insertAll [(3, 7), (1, 2), (3, 9)]).iter.Pairwise
        (fun a b => a.1 < b.1) ∧
      (∀ index value, (index, value) ∈ ((SmallMap.empty : SmallMap Nat).insertAll [(3, 7), (1, 2), (3, 9)]).iter ↔
        SmallMap.lastInserted [(3, 7), (1, 2), (3, 9)] index = some value) ∧
      (∀ index value,
        ((SmallMap.empty : SmallMap Nat).insertAll [(3, 7), (1, 2), (3, 9)]).last = some (index, value) ↔
          SmallMap.lastInserted [(3, 7), (1, 2), (3, 9)] index = some value ∧
            ∀ insert ∈ ([(3, 7), (1, 2), (3, 9)] : List (UInt8 × Nat)), insert.1 ≤ index) ∧
      (((SmallMap.empty : SmallMap Nat).insertAll [(3, 7), (1, 2), (3, 9)]).last = none ↔
        ([(3, 7), (1, 2), (3, 9)] : List (UInt8 × Nat)) = [])) ∧
    (∀ part ∈ ([[(0, 5), (2, 6)], [(1, 7)]] : List (List (Nat × Nat))), part.Pairwise fun a b => a.1 ≤ b.1) ∧
    ∃ merged : List (Nat × Nat × Nat), merged.Perm (tagItems 0 [[(0, 5), (2, 6)], [(1, 7)]]) ∧
      merged.Pairwise (fun a b => a.2.1 ≤ b.2.1) ∧
      mergeByIndex [[(0, 5), (2, 6)], [(1, 7)]] = merged.map fun tagged => (tagged.1, tagged.2.2) :=
  ⟨by decide, smallMap_finiteMap_mergeByIndex.1 Nat _ (by decide), by decide,
    smallMap_finiteMap_mergeByIndex.2 Nat _ (by decide)⟩

end ZksyncEra.MerkleTree
