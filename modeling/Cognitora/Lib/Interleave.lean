/-
  Interleaved tasks over a shared state.

  A `TaskPool` is a state and the tasks that run on it; a turn starts a task or runs one segment of
  one. `Code.rg` is a weakest precondition in which others may act at every await as `rely`
  allows, and every segment of the code must change the state as `guar` says; one rule for each
  way to build code. `TaskPool.Safe.run`: tasks that are safe together stay so, and what every
  guarantee keeps holds after every run. `Code.Keeps` is the case of one invariant.

  A task can be given a log beside its state (`Code.lift`, `Code.note`). `Code.Erases` relates
  such a task to the one without; `TaskPool.erases_run`: the log changes nothing.
-/
import Mathlib.Data.List.Forall2
import Cognitora.Lib.Task

namespace Cognitora.Lib

variable {ι κ σ ν α β : Type}

structure TaskPool (ι σ : Type) where
  state : σ
  tasks : List (Task ι σ Unit)

namespace TaskPool

inductive Turn (ι κ : Type) where
  | start (op : κ)
  | segment (k : Nat) (i : ι)

variable (code : κ → Code ι σ Unit)

/-- One segment of task `k`. -/
def resume (p : TaskPool ι σ) (k : Nat) (i : ι) : TaskPool ι σ :=
  match p.tasks[k]? with
  | none => p
  | some t => { state := (t.step i p.state).1, tasks := p.tasks.set k (t.step i p.state).2 }

def step (p : TaskPool ι σ) : Turn ι κ → TaskPool ι σ
  | .start op => { p with tasks := p.tasks ++ [(code op).task] }
  | .segment k i => p.resume k i

def run (p : TaskPool ι σ) (turns : List (Turn ι κ)) : TaskPool ι σ :=
  turns.foldl (step code) p

end TaskPool

/-! ## Rely and guarantee -/

section

variable (rely guar : σ → σ → Prop)

/-- The task ends with `Q`, whatever the others do while it waits, and each of its segments
    does as `guar` says. -/
def Task.rg (Q : α → σ → Prop) : Task ι σ α → σ → Prop
  | .done a, s => Q a s
  | .await effect next, s =>
    ∀ s', rely s s' → ∀ i, guar s' (effect i s') ∧ Task.rg Q (next i s') (effect i s')

def Code.rg (m : Code ι σ α) (Q : α → σ → Prop) (s : σ) : Prop :=
  ∀ i, guar s (m i s).1 ∧ (m i s).2.rg rely guar Q (m i s).1

end

/-- What a segment is made of may be taken together. -/
structure Guarantee (guar : σ → σ → Prop) : Prop where
  refl : ∀ s, guar s s
  trans : ∀ {s s' s'' : σ}, guar s s' → guar s' s'' → guar s s''

section

variable {rely guar : σ → σ → Prop}

theorem Task.rg_mono {Q R : α → σ → Prop} (hQR : ∀ a s, Q a s → R a s) (t : Task ι σ α) (s : σ)
    (h : t.rg rely guar Q s) : t.rg rely guar R s := by
  induction t generalizing s with
  | done a => exact hQR a s h
  | await effect next ih =>
    intro s' hrely i
    obtain ⟨hguar, hnext⟩ := h s' hrely i
    exact ⟨hguar, ih i s' _ hnext⟩

theorem Task.rg_bind (hg : Guarantee guar) {Q : β → σ → Prop} (k : α → Code ι σ β)
    (t : Task ι σ α) (i : ι) (s : σ) (h : t.rg rely guar (fun a s => (k a).rg rely guar Q s) s) :
    guar s (t.bind k i s).1 ∧ (t.bind k i s).2.rg rely guar Q (t.bind k i s).1 := by
  induction t generalizing i s with
  | done a => exact h i
  | await effect next ih =>
    refine ⟨hg.refl s, fun s' hrely j => ?_⟩
    obtain ⟨hguar, hnext⟩ := h s' hrely j
    obtain ⟨hguar', hrest⟩ := ih j s' j (effect j s') hnext
    exact ⟨hg.trans hguar hguar', hrest⟩

/-- The others have acted. -/
theorem Task.rg_rely (htrans : ∀ s s' s'', rely s s' → rely s' s'' → rely s s'')
    {Q : α → σ → Prop} (hQ : ∀ a s s', Q a s → rely s s' → Q a s') {t : Task ι σ α} {s s' : σ}
    (h : t.rg rely guar Q s) (hrely : rely s s') : t.rg rely guar Q s' := by
  cases t with
  | done a => exact hQ a s s' h hrely
  | await effect next => exact fun s'' hrely' i => h s'' (htrans s s' s'' hrely hrely') i

namespace Code

variable (hg : Guarantee guar)

theorem rg_mono {m : Code ι σ α} {Q R : α → σ → Prop} {s : σ} (h : m.rg rely guar Q s)
    (hQR : ∀ a s, Q a s → R a s) : m.rg rely guar R s :=
  fun i => ⟨(h i).1, Task.rg_mono hQR _ _ (h i).2⟩

include hg

theorem rg_pure {Q : α → σ → Prop} {a : α} {s : σ} (h : Q a s) :
    rg rely guar (pure a : Code ι σ α) Q s :=
  fun _ => ⟨hg.refl s, h⟩

theorem rg_bind {Q : β → σ → Prop} {m : Code ι σ α} {k : α → Code ι σ β} {s : σ}
    (h : m.rg rely guar (fun a s => (k a).rg rely guar Q s) s) :
    rg rely guar (m >>= k) Q s := by
  intro i
  obtain ⟨hguar, hrest⟩ := Task.rg_bind hg k _ i _ (h i).2
  exact ⟨hg.trans (h i).1 hguar, hrest⟩

theorem rg_get {Q : σ → σ → Prop} {s : σ} (h : Q s s) :
    rg rely guar (get : Code ι σ σ) Q s :=
  fun _ => ⟨hg.refl s, h⟩

theorem rg_answer {Q : ι → σ → Prop} {s : σ} (h : ∀ i, Q i s) :
    rg rely guar (answer : Code ι σ ι) Q s :=
  fun i => ⟨hg.refl s, h i⟩

theorem rg_perform {Q : α → σ → Prop} {effect : ι → σ → σ} {result : ι → σ → α} {s : σ}
    (h : ∀ s', rely s s' → ∀ i, guar s' (effect i s') ∧
      ∀ s'', rely (effect i s') s'' → Q (result i s') s'') :
    rg rely guar (perform effect result) Q s := by
  refine fun _ => ⟨hg.refl s, fun s' hrely i => ?_⟩
  obtain ⟨hguar, hQ⟩ := h s' hrely i
  exact ⟨hguar, fun s'' hrely' _ => ⟨hg.refl s'', hQ s'' hrely'⟩⟩

omit hg

theorem rg_modify {Q : Unit → σ → Prop} {f : σ → σ} {s : σ} (hguar : guar s (f s))
    (h : Q () (f s)) : rg rely guar (modify f : Code ι σ Unit) Q s :=
  fun _ => ⟨hguar, h⟩

end Code

end

/-! ## Pools -/

/-- What each task of a pool relies on and guarantees, by its number. -/
structure Roles (σ : Type) where
  rely : Nat → σ → σ → Prop
  guar : Nat → σ → σ → Prop
  refl : ∀ k s, rely k s s
  trans : ∀ k s s' s'', rely k s s' → rely k s' s'' → rely k s s''
  compatible : ∀ j k, j ≠ k → ∀ s s', guar j s s' → rely k s s'

namespace TaskPool

variable {r : Roles σ} {code : κ → Code ι σ Unit} {p : TaskPool ι σ}

/-- Every task is safe in its role. -/
def Safe (r : Roles σ) (p : TaskPool ι σ) : Prop :=
  ∀ (k : Nat) (t : Task ι σ Unit), p.tasks[k]? = some t →
    t.rg (r.rely k) (r.guar k) (fun _ _ => True) p.state

theorem Safe.start (h : p.Safe r) {op : κ}
    (hop : ∀ s, r.rely p.tasks.length p.state s →
      (code op).rg (r.rely p.tasks.length) (r.guar p.tasks.length) (fun _ _ => True) s) :
    (p.step code (.start op)).Safe r := by
  intro k t ht
  rcases Nat.lt_or_ge k p.tasks.length with hk | hk
  · exact h k t ((List.getElem?_append_left hk).symm.trans ht)
  · have hlast : (p.tasks ++ [(code op).task])[k]? = some t := ht
    rw [List.getElem?_append_right hk, List.getElem?_singleton] at hlast
    split at hlast
    · have hlen : k = p.tasks.length := by omega
      cases hlast
      rw [hlen]
      exact fun s' hrely i => hop s' hrely i
    · cases hlast

theorem resume_of_none {k : Nat} (h : p.tasks[k]? = none) (i : ι) : p.resume k i = p := by
  unfold resume
  rw [h]

theorem resume_of_some {k : Nat} {t : Task ι σ Unit} (h : p.tasks[k]? = some t) (i : ι) :
    p.resume k i =
      { state := (t.step i p.state).1, tasks := p.tasks.set k (t.step i p.state).2 } := by
  unfold resume
  rw [h]

theorem length_resume (p : TaskPool ι σ) (k : Nat) (i : ι) :
    (p.resume k i).tasks.length = p.tasks.length := by
  cases h : p.tasks[k]? with
  | none => rw [resume_of_none h]
  | some t => rw [resume_of_some h, List.length_set]

/-- Task `k` is now `t`, the state has changed as the others may rely on. -/
theorem Safe.set (h : p.Safe r) {k : Nat} {t : Task ι σ Unit} {s : σ}
    (ht : t.rg (r.rely k) (r.guar k) (fun _ _ => True) s)
    (hs : ∀ j, j ≠ k → r.rely j p.state s) :
    Safe r { state := s, tasks := p.tasks.set k t } := by
  intro j t' ht'
  by_cases hj : j = k
  · rw [hj] at ht' ⊢
    obtain ⟨hlt, hget⟩ := List.getElem?_eq_some_iff.mp ht'
    rw [List.getElem_set_self] at hget
    rw [← hget]
    exact ht
  · rw [List.getElem?_set_ne (Ne.symm hj)] at ht'
    exact Task.rg_rely (r.trans j) (fun _ _ _ h _ => h) (h j t' ht') (hs j hj)

/-- A segment of one task does as the task guarantees, which is what the others rely on. -/
theorem Safe.resume (h : p.Safe r) (k : Nat) (i : ι) :
    (p.resume k i).Safe r ∧
      ((p.resume k i).state = p.state ∨ r.guar k p.state (p.resume k i).state) := by
  cases ht : p.tasks[k]? with
  | none =>
    rw [resume_of_none ht]
    exact ⟨h, Or.inl rfl⟩
  | some t =>
    rw [resume_of_some ht]
    have hsafe := h k t ht
    cases t with
    | done a => exact ⟨h.set hsafe fun j _ => r.refl j p.state, Or.inl rfl⟩
    | await effect next =>
      obtain ⟨hguar, hnext⟩ := hsafe p.state (r.refl k p.state) i
      exact ⟨h.set hnext fun j hj => r.compatible k j hj.symm _ _ hguar, Or.inr hguar⟩

/-- What every guarantee keeps holds after every run. The first `n` tasks are there from the
    start. -/
theorem Safe.run {J : σ → Prop} (hrely : ∀ k s s', J s → r.rely k s s' → J s')
    (hguar : ∀ k s s', J s → r.guar k s s' → J s') {n : Nat}
    (hop : ∀ op k, n ≤ k → ∀ s, J s →
      (code op).rg (r.rely k) (r.guar k) (fun _ _ => True) s)
    (h : p.Safe r) (hn : n ≤ p.tasks.length) (hp : J p.state) (turns : List (Turn ι κ)) :
    J (p.run code turns).state := by
  induction turns generalizing p with
  | nil => exact hp
  | cons turn turns ih =>
    show J ((p.step code turn).run code turns).state
    cases turn with
    | start op =>
      refine ih (h.start fun s hs => hop op _ hn s (hrely _ _ _ hp hs)) ?_ hp
      show n ≤ (p.tasks ++ [(code op).task]).length
      rw [List.length_append]
      omega
    | segment k i =>
      obtain ⟨hsafe, hstate⟩ := h.resume k i
      refine ih hsafe ((length_resume p k i).symm ▸ hn) ?_
      rcases hstate with hsame | hstep
      · exact hsame ▸ hp
      · exact hguar k _ _ hp hstep

end TaskPool

/-! ## One invariant -/

section

variable {I : σ → Prop}

/-- Every segment keeps `I` if the others do. -/
def Code.Keeps (I : σ → Prop) (m : Code ι σ α) : Prop :=
  ∀ s, I s → m.rg (fun s s' => I s → I s') (fun s s' => I s → I s') (fun _ s => I s) s

theorem Guarantee.keeps : Guarantee fun s s' : σ => I s → I s' where
  refl _ h := h
  trans h h' hs := h' (h hs)

namespace Code.Keeps

protected theorem pure (a : α) : Code.Keeps I (pure a : Code ι σ α) :=
  fun _ hs => Code.rg_pure Guarantee.keeps hs

protected theorem bind {m : Code ι σ α} {k : α → Code ι σ β} (hm : m.Keeps I)
    (hk : ∀ a, (k a).Keeps I) : Code.Keeps I (m >>= k) :=
  fun s hs => Code.rg_bind Guarantee.keeps (Code.rg_mono (hm s hs) fun a s' hs' => hk a s' hs')

protected theorem get : Code.Keeps I (Code.get : Code ι σ σ) :=
  fun _ hs => Code.rg_get Guarantee.keeps hs

protected theorem answer : Code.Keeps I (Code.answer : Code ι σ ι) :=
  fun _ hs => Code.rg_answer Guarantee.keeps fun _ => hs

protected theorem modify {f : σ → σ} (hf : ∀ s, I s → I (f s)) :
    Code.Keeps I (Code.modify f : Code ι σ Unit) :=
  fun s hs => Code.rg_modify (hf s) (hf s hs)

protected theorem perform {effect : ι → σ → σ} {result : ι → σ → α}
    (heffect : ∀ i s, I s → I (effect i s)) : Code.Keeps I (Code.perform effect result) :=
  fun _ hs => Code.rg_perform Guarantee.keeps fun s' hs' i =>
    ⟨heffect i s', fun _ hs'' => hs'' (heffect i s' (hs' hs))⟩

end Code.Keeps

/-- All tasks have the same role: to keep `I`. -/
def Roles.keep (I : σ → Prop) : Roles σ where
  rely _ s s' := I s → I s'
  guar _ s s' := I s → I s'
  refl _ _ h := h
  trans _ _ _ _ h h' hs := h' (h hs)
  compatible _ _ _ _ _ h := h

/-- Tasks that keep `I` keep it together, from an empty pool on. -/
theorem TaskPool.run_keeps {code : κ → Code ι σ Unit} (hcode : ∀ op, (code op).Keeps I) {s : σ}
    (hs : I s) (turns : List (TaskPool.Turn ι κ)) :
    I ((⟨s, []⟩ : TaskPool ι σ).run code turns).state := by
  have hempty : TaskPool.Safe (Roles.keep I) (⟨s, []⟩ : TaskPool ι σ) := fun k t ht => by cases ht
  have hop : ∀ op k, 0 ≤ k → ∀ s, I s →
      (code op).rg ((Roles.keep I).rely k) ((Roles.keep I).guar k) (fun _ _ => True) s :=
    fun op k _ s hs => Code.rg_mono (hcode op s hs) fun _ _ _ => trivial
  have hkept : ∀ (k : Nat) s s', I s → (Roles.keep I).rely k s s' → I s' := fun _ _ _ hI h => h hI
  exact TaskPool.Safe.run hkept hkept hop hempty (Nat.le_refl _) hs turns

end

/-! ## Logs -/

/-- The task, with a log it does not touch. -/
def Task.lift : Task ι σ α → Task ι (σ × List ν) α
  | .done a => .done a
  | .await effect next =>
    .await (fun i p => (effect i p.1, p.2)) fun i p => Task.lift (next i p.1)

def Code.lift (m : Code ι σ α) : Code ι (σ × List ν) α := fun i p =>
  (((m i p.1).1, p.2), (m i p.1).2.lift)

/-- Change the state and write to the log. -/
def Code.modifyNoting (f : σ → σ) (n : σ → ν) : Code ι (σ × List ν) Unit :=
  Code.modify fun p => (f p.1, p.2 ++ [n p.1])

/-- Write to the log. -/
def Code.note (n : σ → ν) : Code ι (σ × List ν) Unit :=
  Code.modifyNoting id n

theorem Task.lift_bind (k : α → Code ι σ β) (t : Task ι σ α) (i : ι) (s : σ) (l : List ν) :
    (((t.bind k i s).1, l), (t.bind k i s).2.lift) =
      t.lift.bind (fun a => (k a).lift) i (s, l) := by
  induction t generalizing i s l with
  | done a => rfl
  | await effect next ih =>
    have hnext : ∀ j (q : σ × List ν), (((((next j q.1).bind k j (effect j q.1)).1, q.2),
          ((next j q.1).bind k j (effect j q.1)).2.lift) : (σ × List ν) × Task ι (σ × List ν) β) =
        (next j q.1).lift.bind (fun a => (k a).lift) j (effect j q.1, q.2) :=
      fun j q => ih j q.1 j (effect j q.1) q.2
    refine Prod.ext rfl ?_
    show Task.await _ _ = Task.await _ _
    congr 1
    · funext j q
      exact congrArg Prod.fst (hnext j q)
    · funext j q
      exact congrArg Prod.snd (hnext j q)

theorem Code.lift_bind (m : Code ι σ α) (k : α → Code ι σ β) :
    ((m >>= k).lift : Code ι (σ × List ν) β) = m.lift >>= fun a => (k a).lift :=
  funext fun i => funext fun p => Task.lift_bind k (m i p.1).2 i (m i p.1).1 p.2

section

variable {rely guar : σ × List ν → σ × List ν → Prop} {p : σ × List ν}

namespace Code

theorem rg_lift_modify {Q : Unit → σ × List ν → Prop} {f : σ → σ} (hguar : guar p (f p.1, p.2))
    (h : Q () (f p.1, p.2)) : rg rely guar (modify f : Code ι σ Unit).lift Q p :=
  fun _ => ⟨hguar, h⟩

variable (hg : Guarantee guar)

include hg

theorem rg_lift_pure {Q : α → σ × List ν → Prop} {a : α} (h : Q a p) :
    rg rely guar (pure a : Code ι σ α).lift Q p :=
  fun _ => ⟨hg.refl p, h⟩

theorem rg_lift_get {Q : σ → σ × List ν → Prop} (h : Q p.1 p) :
    rg rely guar (get : Code ι σ σ).lift Q p :=
  fun _ => ⟨hg.refl p, h⟩

theorem rg_lift_answer {Q : ι → σ × List ν → Prop} (h : ∀ i, Q i p) :
    rg rely guar (answer : Code ι σ ι).lift Q p :=
  fun i => ⟨hg.refl p, h i⟩

theorem rg_lift_bind {Q : β → σ × List ν → Prop} {m : Code ι σ α} {k : α → Code ι σ β}
    (h : m.lift.rg rely guar (fun a p => (k a).lift.rg rely guar Q p) p) :
    rg rely guar (m >>= k).lift Q p := by
  rw [lift_bind]
  exact rg_bind hg h

theorem rg_lift_perform {Q : α → σ × List ν → Prop} {effect : ι → σ → σ} {result : ι → σ → α}
    (h : ∀ p', rely p p' → ∀ i, guar p' (effect i p'.1, p'.2) ∧
      ∀ p'', rely (effect i p'.1, p'.2) p'' → Q (result i p'.1) p'') :
    rg rely guar (perform effect result).lift Q p :=
  rg_perform hg h

omit hg

/-- Code that may do anything but write to the log. -/
theorem rg_lift (hguar : ∀ s s' (l : List ν), guar (s, l) (s', l)) {Q : α → σ × List ν → Prop}
    (hQ : ∀ a p, Q a p) (m : Code ι σ α) (p : σ × List ν) : rg rely guar m.lift Q p := by
  have htask : ∀ (t : Task ι σ α) (p : σ × List ν), t.lift.rg rely guar Q p := by
    intro t
    induction t with
    | done a => exact fun p => hQ a p
    | await effect next ih => exact fun p p' _ i => ⟨hguar _ _ _, ih i p'.1 _⟩
  exact fun i => ⟨hguar _ _ _, htask _ _⟩

end Code

end

/-- The second task is the first without its log. -/
def Task.Erases : Task ι (σ × List ν) α → Task ι σ α → Prop
  | .done a, t => t = .done a
  | .await effect next, t =>
    ∃ effect' next', t = .await effect' next' ∧
      ∀ i p, (effect i p).1 = effect' i p.1 ∧ Task.Erases (next i p) (next' i p.1)

def Code.Erases (m : Code ι (σ × List ν) α) (m' : Code ι σ α) : Prop :=
  ∀ i p, (m i p).1.1 = (m' i p.1).1 ∧ (m i p).2.Erases (m' i p.1).2

theorem Task.erases_lift (t : Task ι σ α) : (t.lift : Task ι (σ × List ν) α).Erases t := by
  induction t with
  | done a => rfl
  | await effect next ih => exact ⟨effect, next, rfl, fun i p => ⟨rfl, ih i p.1⟩⟩

theorem Task.erases_bind {k : α → Code ι (σ × List ν) β} {k' : α → Code ι σ β}
    (hk : ∀ a, (k a).Erases (k' a)) {t : Task ι (σ × List ν) α} {t' : Task ι σ α}
    (h : t.Erases t') (i : ι) (p : σ × List ν) :
    (t.bind k i p).1.1 = (t'.bind k' i p.1).1 ∧ (t.bind k i p).2.Erases (t'.bind k' i p.1).2 := by
  induction t generalizing t' i p with
  | done a =>
    rw [show t' = .done a from h]
    exact hk a i p
  | await effect next ih =>
    obtain ⟨effect', next', rfl, hstep⟩ := h
    refine ⟨rfl, _, _, rfl, fun j q => ?_⟩
    obtain ⟨heffect, hnext⟩ := hstep j q
    obtain ⟨hstate, hrest⟩ := ih j q hnext j (effect j q)
    rw [heffect] at hstate hrest
    exact ⟨hstate, hrest⟩

namespace Code.Erases

protected theorem lift (m : Code ι σ α) : (m.lift : Code ι (σ × List ν) α).Erases m :=
  fun _ _ => ⟨rfl, Task.erases_lift _⟩

protected theorem bind {m : Code ι (σ × List ν) α} {m' : Code ι σ α}
    {k : α → Code ι (σ × List ν) β} {k' : α → Code ι σ β} (hm : m.Erases m')
    (hk : ∀ a, (k a).Erases (k' a)) : Code.Erases (m >>= k) (m' >>= k') := by
  intro i p
  obtain ⟨hstate, htask⟩ := hm i p
  have hbind := Task.erases_bind hk htask i (m i p).1
  rw [hstate] at hbind
  exact hbind

protected theorem pure (a : α) :
    Code.Erases (pure a : Code ι (σ × List ν) α) (pure a : Code ι σ α) :=
  fun _ _ => ⟨rfl, rfl⟩

protected theorem modifyNoting (f : σ → σ) (n : σ → ν) :
    Code.Erases (Code.modifyNoting f n : Code ι (σ × List ν) Unit) (Code.modify f) :=
  fun _ _ => ⟨rfl, rfl⟩

/-- A note is nothing. -/
protected theorem note {n : σ → ν} {m : Code ι (σ × List ν) α} {m' : Code ι σ α}
    (hm : m.Erases m') : Code.Erases (Code.note n >>= fun _ => m) m' :=
  fun i p => hm i (p.1, p.2 ++ [n p.1])

end Code.Erases

namespace TaskPool

section

variable {R : α → β → Prop} {l : List α} {l' : List β}

theorem forall₂_getElem? (h : List.Forall₂ R l l') (k : Nat) :
    (l[k]? = none ∧ l'[k]? = none) ∨ ∃ a b, l[k]? = some a ∧ l'[k]? = some b ∧ R a b := by
  induction h generalizing k with
  | nil => exact Or.inl ⟨rfl, rfl⟩
  | cons hab _ ih =>
    cases k with
    | zero => exact Or.inr ⟨_, _, rfl, rfl, hab⟩
    | succ k => exact ih k

theorem forall₂_set (h : List.Forall₂ R l l') (k : Nat) {a : α} {b : β} (hab : R a b) :
    List.Forall₂ R (l.set k a) (l'.set k b) := by
  induction h generalizing k with
  | nil => exact .nil
  | cons hcd hrest ih =>
    cases k with
    | zero => exact .cons hab hrest
    | succ k => exact .cons hcd (ih k)

end

/-- The second pool is the first without the log. -/
def Erases (p : TaskPool ι (σ × List ν)) (p' : TaskPool ι σ) : Prop :=
  p.state.1 = p'.state ∧ List.Forall₂ Task.Erases p.tasks p'.tasks

theorem erases_resume {p : TaskPool ι (σ × List ν)} {p' : TaskPool ι σ} (h : p.Erases p')
    (k : Nat) (i : ι) : (p.resume k i).Erases (p'.resume k i) := by
  rcases forall₂_getElem? h.2 k with ⟨hnone, hnone'⟩ | ⟨t, t', hsome, hsome', htask⟩
  · rw [resume_of_none hnone, resume_of_none hnone']
    exact h
  · rw [resume_of_some hsome, resume_of_some hsome', ← h.1]
    cases t with
    | done a =>
      rw [show t' = .done a from htask]
      exact ⟨rfl, forall₂_set h.2 k rfl⟩
    | await effect next =>
      obtain ⟨effect', next', rfl, hstep⟩ := htask
      obtain ⟨heffect, hnext⟩ := hstep i p.state
      exact ⟨heffect, forall₂_set h.2 k hnext⟩

theorem erases_run {code : κ → Code ι (σ × List ν) Unit} {code' : κ → Code ι σ Unit}
    (hcode : ∀ op, (code op).Erases (code' op)) {p : TaskPool ι (σ × List ν)}
    {p' : TaskPool ι σ} (h : p.Erases p') (turns : List (Turn ι κ)) :
    (p.run code turns).Erases (p'.run code' turns) := by
  induction turns generalizing p p' with
  | nil => exact h
  | cons turn turns ih =>
    show ((p.step code turn).run code turns).Erases ((p'.step code' turn).run code' turns)
    refine ih ?_
    cases turn with
    | start op =>
      refine ⟨h.1, List.rel_append h.2 (.cons ?_ .nil)⟩
      exact ⟨_, _, rfl, fun i p => hcode op i p⟩
    | segment k i => exact erases_resume h k i

end TaskPool

end Cognitora.Lib
