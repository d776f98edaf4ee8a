/-
  Fixed-width encodings: a list written down block by block, all blocks of one length.
-/
import Mathlib.Tactic.TypeStar

namespace Cognitora.Lib

variable {α β : Type*} {f : α → List β} {n : Nat}

theorem length_flatMap (hlen : ∀ a, (f a).length = n) (l : List α) :
    (l.flatMap f).length = n * l.length := by
  induction l with
  | nil => rfl
  | cons a l ih =>
    rw [List.flatMap_cons, List.length_append, hlen, ih, List.length_cons, Nat.mul_succ]
    omega

/-- Blocks of one positive length can be told apart. -/
theorem flatMap_inj (hpos : 0 < n) (hlen : ∀ a, (f a).length = n) (hf : ∀ a b, f a = f b → a = b)
    {l m : List α} (h : l.flatMap f = m.flatMap f) : l = m := by
  have hlengths := congrArg List.length h
  rw [length_flatMap hlen, length_flatMap hlen] at hlengths
  have hlm : l.length = m.length := Nat.eq_of_mul_eq_mul_left hpos hlengths
  induction l generalizing m with
  | nil => exact (List.eq_nil_of_length_eq_zero hlm.symm).symm
  | cons a l ih =>
    cases m with
    | nil => exact absurd hlm (by simp)
    | cons b m =>
      rw [List.flatMap_cons, List.flatMap_cons] at h
      obtain ⟨hab, hrest⟩ := List.append_inj h (by rw [hlen, hlen])
      have hlm' : l.length = m.length := by simpa using hlm
      rw [hf a b hab, ih hrest (by rw [hlm']) hlm']

/-- A list of whole blocks is written down by something. -/
theorem exists_flatMap_eq (hf : ∀ b : List β, b.length = n → ∃ a, f a = b) (m : Nat)
    (bytes : List β) (hlen : bytes.length = n * m) :
    ∃ l : List α, l.length = m ∧ l.flatMap f = bytes := by
  induction m generalizing bytes with
  | zero => exact ⟨[], rfl, (List.eq_nil_of_length_eq_zero (by simpa using hlen)).symm⟩
  | succ m ih =>
    rw [Nat.mul_succ] at hlen
    obtain ⟨a, ha⟩ := hf (bytes.take n) (by rw [List.length_take]; omega)
    obtain ⟨l, hl, hbytes⟩ := ih (bytes.drop n) (by rw [List.length_drop]; omega)
    refine ⟨a :: l, by rw [List.length_cons, hl], ?_⟩
    rw [List.flatMap_cons, ha, hbytes, List.take_append_drop]

end Cognitora.Lib
