/-
  Association lists with distinct keys (`AList`) as finite maps into `Nat`: the sum of
  the values, and how inserting and erasing a key change it.
-/
import Mathlib.Algebra.BigOperators.Group.List.Basic
import Mathlib.Algebra.Ring.Nat
import Mathlib.Data.List.AList

namespace Cognitora.Lib

variable {κ : Type*}

/-- Sum of the values of a finite map. -/
def mapSum (m : AList fun _ : κ => Nat) : Nat :=
  (m.entries.map Sigma.snd).sum

theorem mapSum_empty : mapSum (∅ : AList fun _ : κ => Nat) = 0 := rfl

variable [DecidableEq κ]

/-- Erasing a key takes its value out of the sum. -/
theorem mapSum_erase (m : AList fun _ : κ => Nat) {k : κ} {v : Nat} (h : m.lookup k = some v) :
    mapSum (m.erase k) + v = mapSum m := by
  have hk : k ∈ m.entries.keys := by
    have : (m.lookup k).isSome := by rw [h]; rfl
    exact AList.mem_keys.mp (AList.lookup_isSome.mp this)
  obtain ⟨w, l₁, l₂, hl₁, hl, he⟩ := List.exists_of_kerase hk
  have hw : w = v := by
    have hm : (⟨k, w⟩ : Sigma fun _ : κ => Nat) ∈ m.entries := by rw [hl]; simp
    have := (List.mem_dlookup_iff m.nodupKeys).mpr hm
    rw [show List.dlookup k m.entries = some v from h] at this
    exact (Option.some.inj this).symm
  have he' : (m.erase k).entries = l₁ ++ l₂ := he
  unfold mapSum
  rw [he', hl, hw]
  simp only [List.map_append, List.map_cons, List.sum_append, List.sum_cons]
  omega

theorem mapSum_erase_of_notMem (m : AList fun _ : κ => Nat) {k : κ} (h : m.lookup k = none) :
    mapSum (m.erase k) = mapSum m := by
  have hk : k ∉ m.entries.keys := fun hk =>
    AList.lookup_eq_none.mp h (AList.mem_keys.mpr hk)
  have he : (m.erase k).entries = m.entries := List.kerase_of_notMem_keys hk
  unfold mapSum
  rw [he]

/-- Writing a key replaces its old value (0 when it was absent) in the sum. -/
theorem mapSum_insert (m : AList fun _ : κ => Nat) (k : κ) (v : Nat) :
    mapSum (m.insert k v) + (m.lookup k).getD 0 = mapSum m + v := by
  have hs : mapSum (m.insert k v) = v + mapSum (m.erase k) := by
    have : (m.insert k v).entries = ⟨k, v⟩ :: (m.erase k).entries := AList.entries_insert
    unfold mapSum
    rw [this, List.map_cons, List.sum_cons]
  cases h : m.lookup k with
  | none =>
    rw [hs, mapSum_erase_of_notMem m h, Option.getD_none]
    omega
  | some w =>
    have := mapSum_erase m h
    rw [hs, Option.getD_some]
    omega

end Cognitora.Lib
