/-
  Cooperative tasks over a shared state: code that runs in segments, from one await to the
  next, with other tasks acting between two segments.

  `Task` is what is left of a task, `Code` a piece of it that starts inside a segment: it runs
  until it finishes or awaits. Each segment is given an answer of the environment (the outcome
  of what was awaited, a clock reading). A task has finitely many segments whatever the
  answers are. `Task.step` runs one segment, `Task.Runs` a whole task that nothing interrupts.

  `Code.wp` is the weakest precondition of an uninterrupted run under every answer that `ok`
  admits, with one rule for each way to build code.
-/

namespace Cognitora.Lib

variable {ι σ α β : Type}

/-- What is left of a task: a result, or a segment (its effect on the state, and what is left
    after it) that waits for the environment's answer. -/
inductive Task (ι σ α : Type) where
  | done (a : α)
  | await (effect : ι → σ → σ) (next : ι → σ → Task ι σ α)

/-- Code that starts inside a segment: the state it leaves at its end or its first await, and
    what is left of it then. -/
def Code (ι σ α : Type) : Type := ι → σ → σ × Task ι σ α

namespace Task

/-- Run one segment. -/
def step (t : Task ι σ α) (i : ι) (s : σ) : σ × Task ι σ α :=
  match t with
  | done a => (s, done a)
  | await effect next => (effect i s, next i s)

def isDone : Task ι σ α → Bool
  | done _ => true
  | await _ _ => false

/-- Go on with `k` in the segment that finishes the task. -/
def bind : Task ι σ α → (α → Code ι σ β) → Code ι σ β
  | done a, k => k a
  | await effect next, k => fun _ s =>
    (s, await (fun i s => ((next i s).bind k i (effect i s)).1)
      (fun i s => ((next i s).bind k i (effect i s)).2))

/-- An uninterrupted run with answers that `ok` admits. -/
inductive Runs (ok : ι → Prop) : Task ι σ α → σ → α → σ → Prop where
  | done (a : α) (s : σ) : Runs ok (done a) s a s
  | await {effect : ι → σ → σ} {next : ι → σ → Task ι σ α} {s s' : σ} {a : α} (i : ι) (hi : ok i)
      (h : Runs ok (next i s) (effect i s) a s') : Runs ok (await effect next) s a s'

/-- Every uninterrupted run ends with `Q`. -/
def wp (ok : ι → Prop) (Q : α → σ → Prop) : Task ι σ α → σ → Prop
  | done a, s => Q a s
  | await effect next, s => ∀ i, ok i → wp ok Q (next i s) (effect i s)

variable {ok : ι → Prop}

theorem Runs.of_wp {Q : α → σ → Prop} {t : Task ι σ α} {s s' : σ} {a : α} (h : Runs ok t s a s')
    (hwp : t.wp ok Q s) : Q a s' := by
  induction h with
  | done a s => exact hwp
  | await i hi _ ih => exact ih (hwp i hi)

/-- Nothing keeps a task from running to its end. -/
theorem exists_runs {i : ι} (hi : ok i) (t : Task ι σ α) (s : σ) : ∃ a s', Runs ok t s a s' := by
  induction t generalizing s with
  | done a => exact ⟨a, s, .done a s⟩
  | await effect next ih =>
    obtain ⟨a, s', h⟩ := ih i s (effect i s)
    exact ⟨a, s', .await i hi h⟩

theorem wp_mono {Q R : α → σ → Prop} (hQR : ∀ a s, Q a s → R a s) (t : Task ι σ α) (s : σ)
    (h : t.wp ok Q s) : t.wp ok R s := by
  induction t generalizing s with
  | done a => exact hQR a s h
  | await effect next ih => exact fun i hi => ih i s _ (h i hi)

/-- With fewer answers there are fewer runs. -/
theorem Runs.imp {ok' : ι → Prop} (hok : ∀ i, ok' i → ok i) {t : Task ι σ α} {s s' : σ} {a : α}
    (h : Runs ok' t s a s') : Runs ok t s a s' := by
  induction h with
  | done a s => exact .done a s
  | await i hi _ ih => exact .await i (hok i hi) ih

theorem wp_imp {ok' : ι → Prop} (hok : ∀ i, ok' i → ok i) {Q : α → σ → Prop} (t : Task ι σ α)
    (s : σ) (h : t.wp ok Q s) : t.wp ok' Q s := by
  induction t generalizing s with
  | done a => exact h
  | await effect next ih => exact fun i hi => ih i s _ (h i (hok i hi))

theorem wp_bind {Q : β → σ → Prop} (k : α → Code ι σ β) (t : Task ι σ α) (i : ι) (hi : ok i) (s : σ)
    (h : t.wp ok (fun a s => ∀ i, ok i → (k a i s).2.wp ok Q (k a i s).1) s) :
    (t.bind k i s).2.wp ok Q (t.bind k i s).1 := by
  induction t generalizing i s with
  | done a => exact h i hi
  | await effect next ih => exact fun j hj => ih j s j hj _ (h j hj)

end Task

namespace Code

instance : Monad (Code ι σ) where
  pure a := fun _ s => (s, .done a)
  bind m k := fun i s => (m i s).2.bind k i (m i s).1

def get : Code ι σ σ := fun _ s => (s, .done s)

def modify (f : σ → σ) : Code ι σ Unit := fun _ s => (f s, .done ())

/-- The answer the current segment was given. -/
def answer : Code ι σ ι := fun i s => (s, .done i)

/-- Await an operation of the environment: it takes effect in a segment of its own, and the
    code goes on with its result in a later one. -/
def perform (effect : ι → σ → σ) (result : ι → σ → α) : Code ι σ α := fun _ s =>
  (s, .await effect fun i s => .await (fun _ s => s) fun _ _ => .done (result i s))

theorem bind_answer (k : ι → Code ι σ α) (i : ι) (s : σ) : (answer >>= k) i s = k i i s := rfl

theorem bind_get (k : σ → Code ι σ α) (i : ι) (s : σ) : (get >>= k) i s = k s i s := rfl

/-- A task that starts with its first segment. -/
def task (m : Code ι σ α) : Task ι σ α :=
  .await (fun i s => (m i s).1) (fun i s => (m i s).2)

variable {ok : ι → Prop}

/-- Every uninterrupted run from `s` ends with `Q`. -/
def wp (ok : ι → Prop) (m : Code ι σ α) (Q : α → σ → Prop) (s : σ) : Prop :=
  ∀ i, ok i → (m i s).2.wp ok Q (m i s).1

/-- An uninterrupted run. -/
def Runs (ok : ι → Prop) (m : Code ι σ α) (s : σ) (a : α) (s' : σ) : Prop :=
  m.task.Runs ok s a s'

theorem Runs.of_wp {m : Code ι σ α} {Q : α → σ → Prop} {s s' : σ} {a : α} (h : Runs ok m s a s')
    (hwp : m.wp ok Q s) : Q a s' :=
  Task.Runs.of_wp h hwp

theorem exists_runs {i : ι} (hi : ok i) (m : Code ι σ α) (s : σ) : ∃ a s', Runs ok m s a s' :=
  Task.exists_runs hi m.task s

theorem wp_mono {m : Code ι σ α} {Q R : α → σ → Prop} {s : σ} (h : m.wp ok Q s)
    (hQR : ∀ a s, Q a s → R a s) : m.wp ok R s :=
  fun i hi => Task.wp_mono hQR _ _ (h i hi)

theorem Runs.imp {ok' : ι → Prop} (hok : ∀ i, ok' i → ok i) {m : Code ι σ α} {s s' : σ} {a : α}
    (h : Runs ok' m s a s') : Runs ok m s a s' :=
  Task.Runs.imp hok h

theorem wp_imp {ok' : ι → Prop} (hok : ∀ i, ok' i → ok i) {m : Code ι σ α} {Q : α → σ → Prop}
    {s : σ} (h : m.wp ok Q s) : m.wp ok' Q s :=
  fun i hi => Task.wp_imp hok _ _ (h i (hok i hi))

theorem wp_pure {Q : α → σ → Prop} {a : α} {s : σ} (h : Q a s) :
    wp ok (pure a : Code ι σ α) Q s :=
  fun _ _ => h

theorem wp_bind {Q : β → σ → Prop} {m : Code ι σ α} {k : α → Code ι σ β} {s : σ}
    (h : m.wp ok (fun a s => (k a).wp ok Q s) s) : wp ok (m >>= k) Q s :=
  fun i hi => Task.wp_bind k _ i hi _ (h i hi)

theorem wp_get {Q : σ → σ → Prop} {s : σ} (h : Q s s) : wp ok (get : Code ι σ σ) Q s :=
  fun _ _ => h

theorem wp_modify {Q : Unit → σ → Prop} {f : σ → σ} {s : σ} (h : Q () (f s)) :
    wp ok (modify f : Code ι σ Unit) Q s :=
  fun _ _ => h

theorem wp_answer {Q : ι → σ → Prop} {s : σ} (h : ∀ i, ok i → Q i s) :
    wp ok (answer : Code ι σ ι) Q s :=
  h

theorem wp_perform {Q : α → σ → Prop} {effect : ι → σ → σ} {result : ι → σ → α} {s : σ}
    (h : ∀ i, ok i → Q (result i s) (effect i s)) : wp ok (perform effect result) Q s :=
  fun _ _ i hi _ _ => h i hi

end Code

end Cognitora.Lib
