/-
  Finite maps as association lists with distinct keys (`AList`): one pass over all values
  that may change or drop each of them, the map of a list of pairs, the last pair of a key
  first, and counting.
-/
import Mathlib.Data.List.AList
import Mathlib.Data.List.Induction

namespace Cognitora.Lib

variable {κ β : Type*}

/-- Apply `f` to every value; a key whose value becomes `none` is dropped. -/
def updateAll (f : β → Option β) (m : AList fun _ : κ => β) : AList fun _ : κ => β where
  entries := m.entries.filterMap fun e => (f e.2).map (Sigma.mk e.1)
  nodupKeys := by
    rw [List.nodupKeys_iff_pairwise]
    refine List.Pairwise.filterMap _ ?_ (List.nodupKeys_iff_pairwise.mp m.nodupKeys)
    intro e e' hne b hb b' hb'
    obtain ⟨v, _, rfl⟩ := Option.map_eq_some_iff.mp hb
    obtain ⟨v', _, rfl⟩ := Option.map_eq_some_iff.mp hb'
    exact hne

theorem lookup_updateAll [DecidableEq κ] (f : β → Option β) (m : AList fun _ : κ => β) (k : κ) :
    (updateAll f m).lookup k = (m.lookup k).bind f := by
  ext v
  rw [← Option.mem_def, AList.mem_lookup_iff]
  have hentries : (updateAll f m).entries =
      m.entries.filterMap fun e => (f e.2).map (Sigma.mk e.1) := rfl
  rw [hentries, List.mem_filterMap, Option.bind_eq_some_iff]
  constructor
  · rintro ⟨⟨k', w⟩, hw, hv⟩
    obtain ⟨v', hv', heq⟩ := Option.map_eq_some_iff.mp hv
    cases heq
    exact ⟨w, AList.mem_lookup_iff.mpr hw, hv'⟩
  · rintro ⟨w, hw, hv⟩
    exact ⟨⟨k, w⟩, AList.mem_lookup_iff.mp hw, by rw [hv]; rfl⟩

section

variable [DecidableEq κ]

/-- The map of some pairs; a later pair of a key replaces an earlier one. -/
def ofPairs (pairs : List (κ × β)) : AList fun _ : κ => β :=
  pairs.foldl (fun m p => m.insert p.1 p.2) ∅

theorem lookup_ofPairs_concat (pairs : List (κ × β)) (p : κ × β) (k : κ) :
    (ofPairs (pairs ++ [p])).lookup k =
      if k = p.1 then some p.2 else (ofPairs pairs).lookup k := by
  rw [ofPairs, List.foldl_concat]
  split
  · next h => rw [h, AList.lookup_insert]
  · next h =>
    rw [AList.lookup_insert_ne h]
    rfl

/-- Inserting at some keys values that depend on the key. -/
theorem lookup_foldl_insert (f : κ → β) (keys : List κ) (m : AList fun _ : κ => β) (k : κ) :
    (keys.foldl (fun m k => m.insert k (f k)) m).lookup k =
      if k ∈ keys then some (f k) else m.lookup k := by
  induction keys generalizing m with
  | nil => simp
  | cons key keys ih =>
    rw [List.foldl_cons, ih]
    by_cases hk : k = key
    · subst hk
      simp
    · rw [AList.lookup_insert_ne hk]
      simp [hk]

/-- One more at the key, which starts from 0. -/
def bump (m : AList fun _ : κ => Nat) (k : κ) : AList fun _ : κ => Nat :=
  m.insert k ((m.lookup k).getD 0 + 1)

theorem lookup_foldl_bump (keys : List κ) (m : AList fun _ : κ => Nat) (k : κ) :
    (keys.foldl bump m).lookup k =
      if k ∈ keys then some ((m.lookup k).getD 0 + keys.count k) else m.lookup k := by
  induction keys generalizing m with
  | nil => simp
  | cons key keys ih =>
    rw [List.foldl_cons, ih, bump]
    by_cases hk : k = key
    · subst hk
      rw [AList.lookup_insert, List.count_cons_self, if_pos List.mem_cons_self, Option.getD_some]
      split
      · congr 1
        omega
      · next hnot => rw [List.count_eq_zero_of_not_mem hnot]
    · rw [AList.lookup_insert_ne hk, List.count_cons_of_ne (Ne.symm hk)]
      simp [hk]

/-- Pairs kept by their key alone leave the map of the keys kept. -/
theorem lookup_ofPairs_filter (keep : κ → Bool) (pairs : List (κ × β)) (k : κ) :
    (ofPairs (pairs.filter fun p => keep p.1)).lookup k =
      if keep k then (ofPairs pairs).lookup k else none := by
  induction pairs using List.reverseRecOn with
  | nil =>
    split <;> rfl
  | append_singleton pairs p ih =>
    rw [List.filter_append, lookup_ofPairs_concat]
    by_cases hp : keep p.1 = true
    · rw [List.filter_cons_of_pos (by simpa using hp), List.filter_nil, lookup_ofPairs_concat, ih]
      by_cases hk : k = p.1
      · rw [if_pos hk, if_pos hk, hk, if_pos hp]
      · rw [if_neg hk, if_neg hk]
    · rw [List.filter_cons_of_neg (by simpa using hp), List.filter_nil, List.append_nil, ih]
      by_cases hk : k = p.1
      · rw [hk, if_neg hp, if_neg hp]
      · rw [if_neg hk]

end

end Cognitora.Lib
