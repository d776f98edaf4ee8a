/-
  Programs whose operations may fail at any point, over a state that a failure does not undo.

  `Faulty S` computes over `S` and counts the operations it tries; `attempt fails` is the next
  of them, which fails if `fails` says so. A failure ends the program and leaves the state as
  it was then. `Meets x s Q E`: from `s`, whatever has been counted before, `x` returns a value
  with `Q` or fails in a state with `E`. One rule for each construct: a proof goes through the
  program from its first line and never mentions the count, and `E` is shown once for each
  state in which an operation is tried.
-/
import Mathlib.Data.List.Basic

namespace Cognitora.Lib

/-- The count of the operations tried goes along with the state. -/
abbrev Faulty (S : Type) := OptionT (StateM (Nat × S))

namespace Faulty

variable {S α β : Type}

def read : Faulty S S := fun w => (some w.2, w)

def alter (f : S → S) : Faulty S Unit := fun w => (some (), w.1, f w.2)

/-- The next operation; it yields `a`. -/
def attempt (fails : Nat → Bool) (a : α) : Faulty S α := fun w =>
  (if fails w.1 then none else some a, w.1 + 1, w.2)

/-- Goes on if `c` holds. -/
def require (c : Prop) [Decidable c] : Faulty S Unit := fun w =>
  (if c then some () else none, w)

/-- From `s` the program returns with `Q` or fails with `E`. -/
def Meets (x : Faulty S α) (s : S) (Q : α → S → Prop) (E : S → Prop) : Prop :=
  ∀ n, (∀ a, (x (n, s)).1 = some a → Q a (x (n, s)).2.2) ∧ ((x (n, s)).1 = none → E (x (n, s)).2.2)

variable {x : Faulty S α} {f : α → Faulty S β} {s : S} {a : α} {Q R : α → S → Prop}
  {Q' : β → S → Prop} {E E' : S → Prop}

theorem Meets.mono (h : Meets x s R E') (hQ : ∀ a t, R a t → Q a t) (hE : ∀ t, E' t → E t) :
    Meets x s Q E := by
  intro n
  obtain ⟨hret, hfail⟩ := h n
  exact ⟨fun a ha => hQ a _ (hret a ha), fun hn => hE _ (hfail hn)⟩

theorem meets_trivial : Meets x s (fun _ _ => True) fun _ => True :=
  fun _ => ⟨fun _ _ => trivial, fun _ => trivial⟩

theorem meets_pure (h : Q a s) : Meets (pure a) s Q E := by
  intro n
  refine ⟨?_, fun hn => nomatch hn⟩
  intro b hb
  cases hb
  exact h

/-- How a program goes on after its first part. -/
theorem bind_run (x : Faulty S α) (f : α → Faulty S β) (w : Nat × S) :
    (x >>= f) w = (x w).1.elim (none, (x w).2) fun a => f a (x w).2 := by
  simp only [bind, OptionT.bind, OptionT.mk, StateT.bind]
  generalize x w = r
  obtain ⟨a, v⟩ := r
  cases a <;> rfl

theorem Meets.bind (hx : Meets x s R E) (hf : ∀ a t, R a t → Meets (f a) t Q' E) :
    Meets (x >>= f) s Q' E := by
  intro n
  obtain ⟨hret, hfail⟩ := hx n
  rw [bind_run]
  cases hr : (x (n, s)).1 with
  | none => exact ⟨fun b hb => (nomatch hb), fun _ => hfail hr⟩
  | some a => exact hf a _ (hret a hr) _

theorem meets_attempt {fails : Nat → Bool} (hQ : Q a s) (hE : E s) :
    Meets (attempt fails a) s Q E := by
  intro n
  unfold attempt
  dsimp only
  split
  · exact ⟨fun b hb => (nomatch hb), fun _ => hE⟩
  · refine ⟨fun b hb => ?_, fun hn => nomatch hn⟩
    cases hb
    exact hQ

theorem Meets.attempt_bind {fails : Nat → Bool} (hE : E s) (h : Meets (f a) s Q' E) :
    Meets (attempt fails a >>= f) s Q' E := by
  refine (meets_attempt (Q := fun b t => b = a ∧ t = s) ⟨rfl, rfl⟩ hE).bind ?_
  intro b t ⟨hb, ht⟩
  rw [hb, ht]
  exact h

theorem Meets.read_bind {f : S → Faulty S β} (h : Meets (f s) s Q' E) :
    Meets (read >>= f) s Q' E := by
  intro n
  rw [bind_run]
  exact h n

theorem Meets.alter_bind {g : S → S} {f : Unit → Faulty S β} (h : Meets (f ()) (g s) Q' E) :
    Meets (alter g >>= f) s Q' E := by
  intro n
  rw [bind_run]
  exact h n

theorem Meets.require_bind {c : Prop} [Decidable c] {f : Unit → Faulty S β}
    (h : c → Meets (f ()) s Q' E) (hE : ¬ c → E s) : Meets (require c >>= f) s Q' E := by
  intro n
  rw [bind_run]
  unfold require
  by_cases hc : c
  · rw [if_pos hc]
    exact h hc n
  · rw [if_neg hc]
    exact ⟨fun b hb => (nomatch hb), fun _ => hE hc⟩

/-- A loop over a list: `I i` holds before round `i`. -/
theorem meets_foldlM {g : α → β → Faulty S α} (I : Nat → α → S → Prop) (l : List β)
    (hround : ∀ i b a s, l[i]? = some b → I i a s → Meets (g a b) s (I (i + 1)) E)
    (h : I 0 a s) : Meets (l.foldlM g a) s (I l.length) E := by
  induction l generalizing I a s with
  | nil => exact meets_pure h
  | cons b l ih =>
    rw [List.foldlM_cons]
    refine (hround 0 b a s rfl h).bind ?_
    intro a' t ht
    exact ih (fun i => I (i + 1)) (fun i b' a s hb => hround (i + 1) b' a s hb) ht

end Faulty

end Cognitora.Lib
