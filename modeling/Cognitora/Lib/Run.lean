/-
  Runs of a transition function `step : S → A → S` under a list of actions, folded from
  the left.

  `Along step P s acts` says that every step of the run of `acts` from `s` meets `P`,
  a condition on the state before the step and the action taken. `Along.invariant` carries an
  invariant along such a run, and `Along.of_invariant` what follows from it at each step;
  `along_iff` compares two conditions under an invariant that one of them keeps, and
  `iterate_reaches` turns a decreasing rank into a state that is reached after finitely many
  steps. An invariant that every step keeps is carried by `List.foldlRecOn`. `ghostRun` runs a
  second state next to the first, which sees each step but does not act on it.
-/
import Mathlib.Data.Prod.Lex
import Mathlib.Logic.Function.Iterate
import Mathlib.Order.WellFounded

namespace Cognitora.Lib

variable {S A : Type*}

/-- Every step of the run of `acts` from `s` meets `P`. -/
def Along (step : S → A → S) (P : S → A → Prop) : S → List A → Prop
  | _, [] => True
  | s, a :: acts => P s a ∧ Along step P (step s a) acts

variable {step : S → A → S} {P Q : S → A → Prop} {I : S → Prop}

instance decidableAlong [∀ s a, Decidable (P s a)] :
    (s : S) → (acts : List A) → Decidable (Along step P s acts)
  | _, [] => .isTrue trivial
  | s, a :: acts =>
    have := decidableAlong (step s a) acts
    inferInstanceAs (Decidable (P s a ∧ Along step P (step s a) acts))

theorem along_append (s : S) (xs ys : List A) :
    Along step P s (xs ++ ys) ↔ Along step P s xs ∧ Along step P (xs.foldl step s) ys := by
  induction xs generalizing s with
  | nil => simp [Along]
  | cons x xs ih => simp only [List.cons_append, Along, List.foldl_cons, ih, and_assoc]

theorem Along.mono (hPQ : ∀ s a, P s a → Q s a) {acts : List A} {s : S}
    (h : Along step P s acts) : Along step Q s acts := by
  induction acts generalizing s with
  | nil => trivial
  | cons a acts ih => exact ⟨hPQ s a h.1, ih h.2⟩

/-- What holds of every action can be added to the condition. -/
theorem Along.and_of_forall {R : A → Prop} {acts : List A} {s : S} (h : Along step P s acts)
    (hR : ∀ a ∈ acts, R a) : Along step (fun s a => R a ∧ P s a) s acts := by
  induction acts generalizing s with
  | nil => trivial
  | cons a acts ih =>
    exact ⟨⟨hR a List.mem_cons_self, h.1⟩,
      ih h.2 fun b hb => hR b (List.mem_cons_of_mem _ hb)⟩

/-- An invariant that the steps meeting `P` keep holds in every state such a run reaches. -/
theorem Along.invariant (hstep : ∀ s a, I s → P s a → I (step s a)) {acts : List A} {s : S}
    (h : Along step P s acts) (hI : I s) {reached : List A} (hreached : reached <+: acts) :
    I (reached.foldl step s) := by
  obtain ⟨rest, rfl⟩ := hreached
  have hrun := ((along_append s reached rest).mp h).1
  clear h
  induction reached generalizing s with
  | nil => exact hI
  | cons a reached ih => exact ih (hstep s a hI hrun.1) hrun.2

/-- What follows from an invariant holds at every step of a run that keeps it. -/
theorem Along.of_invariant (hP : ∀ s a, I s → P s a) (hstep : ∀ s a, I s → Q s a → I (step s a))
    {acts : List A} {s : S} (h : Along step Q s acts) (hI : I s) : Along step P s acts := by
  induction acts generalizing s with
  | nil => trivial
  | cons a acts ih => exact ⟨hP s a hI, ih h.2 (hstep s a hI h.1)⟩

/-- Two conditions that agree on the states of an invariant hold along the same runs, among
    the runs of `R` steps, where the `R` steps that meet the second keep the invariant. -/
theorem Along.iff_of {R : S → A → Prop} (hPQ : ∀ s a, I s → R s a → (P s a ↔ Q s a))
    (hstep : ∀ s a, I s → R s a → Q s a → I (step s a)) {acts : List A} {s : S}
    (hR : Along step R s acts) (h : I s) : Along step P s acts ↔ Along step Q s acts := by
  induction acts generalizing s with
  | nil => exact Iff.rfl
  | cons a acts ih =>
    simp only [Along, hPQ s a h hR.1]
    constructor
    · rintro ⟨hq, hp⟩
      exact ⟨hq, (ih hR.2 (hstep s a h hR.1 hq)).mp hp⟩
    · rintro ⟨hq, hp⟩
      exact ⟨hq, (ih hR.2 (hstep s a h hR.1 hq)).mpr hp⟩

theorem along_of_forall (h : ∀ s a, P s a) (acts : List A) (s : S) : Along step P s acts := by
  induction acts generalizing s with
  | nil => trivial
  | cons a acts ih => exact ⟨h s a, ih _⟩

/-- Two conditions that agree on the states of an invariant, where the steps that meet
    the second keep that invariant, hold along the same runs. -/
theorem along_iff (hPQ : ∀ s a, I s → (P s a ↔ Q s a))
    (hstep : ∀ s a, I s → Q s a → I (step s a)) (acts : List A) (s : S) (h : I s) :
    Along step P s acts ↔ Along step Q s acts :=
  Along.iff_of (R := fun _ _ => True) (fun s a hI _ => hPQ s a hI)
    (fun s a hI _ => hstep s a hI) (along_of_forall (fun _ _ => trivial) acts s) h

/-- A rank that falls at every step outside `Done` leads into `Done`. -/
theorem iterate_reaches {R : Type*} [Preorder R] [WellFoundedLT R] {f : S → S}
    {Done : S → Prop} (rank : S → R)
    (hstep : ∀ s, I s → ¬ Done s → I (f s) ∧ rank (f s) < rank s) (s : S) (h : I s) :
    ∃ n, Done (f^[n] s) := by
  induction hr : rank s using WellFoundedLT.induction generalizing s with
  | ind r ih =>
    by_cases hd : Done s
    · exact ⟨0, hd⟩
    · obtain ⟨hi, hlt⟩ := hstep s h hd
      obtain ⟨n, hn⟩ := ih (rank (f s)) (hr ▸ hlt) (f s) hi rfl
      exact ⟨n + 1, by rwa [Function.iterate_succ_apply]⟩

/-! ## Ghost state -/

/-- A run together with a ghost state that is updated at every step and that no step reads. -/
def ghostRun {G : Type*} (step : S → A → S) (note : S → G → A → G) (s : S) (g : G)
    (acts : List A) : S × G :=
  acts.foldl (fun p a => (step p.1 a, note p.1 p.2 a)) (s, g)

theorem ghostRun_fst {G : Type*} (note : S → G → A → G) (s : S) (g : G) (acts : List A) :
    (ghostRun step note s g acts).1 = acts.foldl step s := by
  induction acts generalizing s g with
  | nil => rfl
  | cons a acts ih => exact ih (step s a) (note s g a)

theorem ghostRun_concat {G : Type*} (note : S → G → A → G) (s : S) (g : G) (acts : List A)
    (a : A) : (ghostRun step note s g (acts ++ [a])).2 =
      note (acts.foldl step s) (ghostRun step note s g acts).2 a := by
  rw [← ghostRun_fst note s g acts]
  unfold ghostRun
  rw [List.foldl_append]
  rfl

end Cognitora.Lib
