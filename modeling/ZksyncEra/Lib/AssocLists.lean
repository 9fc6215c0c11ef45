import Mathlib

/-!
Association lists seen as finite maps up to the order of their entries.

A map that holds a value at a key is, up to permutation, that entry followed by the map with the
key erased; sums and collections over the entries then split off one key at a time. A list of
entries with distinct fresh keys inserted one after another gives those entries in front.
-/

namespace AList

variable {α β : Type} [DecidableEq α]

/-- A map with a value at `a` is that entry followed by the rest of the map. -/
theorem entries_perm_erase {s : AList fun _ : α => β} {a : α} {b : β} (found : s.lookup a = some b) :
    s.entries.Perm (⟨a, b⟩ :: (s.erase a).entries) := by
  have member : a ∈ s.entries.keys := AList.mem_keys.mp (AList.lookup_isSome.mp (by simp [found]))
  obtain ⟨b', l₁, l₂, _, split, erased⟩ := List.exists_of_kerase member
  have same : b' = b := by
    have lookedUp : b' ∈ s.lookup a := (AList.mem_lookup_iff).mpr (by rw [split]; simp)
    rw [found] at lookedUp
    exact (Option.some.inj lookedUp).symm
  subst same
  change s.entries.Perm (⟨a, b'⟩ :: List.kerase a s.entries)
  rw [erased, split]
  exact List.perm_middle

theorem length_of_lookup_eq_some {s : AList fun _ : α => β} {a : α} {b : β}
    (found : s.lookup a = some b) : s.entries.length = (s.erase a).entries.length + 1 := by
  rw [(entries_perm_erase found).length_eq, List.length_cons]

theorem erase_of_lookup_eq_none {s : AList fun _ : α => β} {a : α} (absent : s.lookup a = none) :
    s.erase a = s :=
  AList.ext (List.kerase_of_notMem_keys (AList.mem_keys.not.mp (AList.lookup_eq_none.mp absent)))

theorem length_insert (s : AList fun _ : α => β) (a : α) (b : β) :
    (s.insert a b).entries.length = s.entries.length + if (s.lookup a).isNone then 1 else 0 := by
  rw [AList.entries_insert, List.length_cons]
  change (s.erase a).entries.length + 1 = _
  cases found : s.lookup a with
  | none => simp [erase_of_lookup_eq_none found]
  | some b' => simp [length_of_lookup_eq_some found]

/-- Inserting entries with distinct keys that the map does not hold puts them in front. -/
theorem entries_foldl_insert {γ : Type} (key : γ → α) (value : γ → β) :
    ∀ (l : List γ) (s : AList fun _ : α => β), (l.map key).Nodup → (∀ x ∈ l, key x ∉ s) →
      (l.foldl (fun m x => m.insert (key x) (value x)) s).entries.Perm
        ((l.map fun x => (⟨key x, value x⟩ : Sigma fun _ : α => β)).reverse ++ s.entries)
  | [], s, _, _ => by simp
  | x :: xs, s, nodup, fresh => by
    have distinct : (∀ y ∈ xs, key y ≠ key x) ∧ (xs.map key).Nodup := by simpa using nodup
    have fresh' : ∀ y ∈ xs, key y ∉ s.insert (key x) (value x) := by
      intro y member inserted
      rcases (AList.mem_insert s).mp inserted with same | old
      · exact distinct.1 y member same
      · exact fresh y (List.mem_cons_of_mem x member) old
    have rest := entries_foldl_insert key value xs _ distinct.2 fresh'
    rw [List.foldl_cons]
    refine rest.trans ?_
    rw [AList.entries_insert_of_notMem (fresh x List.mem_cons_self)]
    simp

end AList
