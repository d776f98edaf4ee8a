/-
  One put against one spill of the same address (cgn-kvcached `src/tiers.rs`).

  `spill_to_ssd` reads the bytes, writes them to a file over three awaited file operations and
  then evicts whatever RAM holds under the address. `put_survives_iff`: when a put and a spill
  that started before it have both returned, `lookup_with_promote` finds the put's bytes
  exactly if the put landed after the spill had returned, or a file operation of the spill
  failed, or both are the same bytes.

  A race starts right after the first segment of the spill. A turn is one more segment of the
  spill, the one segment of the put, or, once the spill has returned and until the put does,
  anything the caller of the spill goes on with (`evict_pass` and its next victims).
-/
import Cognitora.KvCached.TierSafety

namespace Cognitora.KvCached.Store

open Cognitora.Lib SsdTier

structure Race where
  spill : Task Env Store (Except Failure Unit)
  put : Task Env Store Unit
  store : Store

inductive Turn where
  | spill (e : Env)
  | put (e : Env)
  | rest (g : Store → Store)

namespace Race

def step (r : Race) : Turn → Race
  | .spill e =>
    { r with spill := (r.spill.step e r.store).2, store := (r.spill.step e r.store).1 }
  | .put e => { r with put := (r.put.step e r.store).2, store := (r.put.step e r.store).1 }
  | .rest g => if r.spill.isDone && !r.put.isDone then { r with store := g r.store } else r

def run (r : Race) (turns : List Turn) : Race :=
  turns.foldl step r

/-- The spill has run its first segment, the put has not started. -/
def start (s : Store) (e : Env) (addr : BlockAddress) (model : String) (bytes : Bytes)
    (putModel : String) : Race where
  spill := (Store.spillToSsd addr model e s).2
  put := (Store.putRam addr bytes putModel).task
  store := (Store.spillToSsd addr model e s).1

/-- Both have returned. -/
def bothReturned (r : Race) : Bool :=
  r.spill.isDone && r.put.isDone

end Race

def Turn.isPut : Turn → Bool
  | .put _ => true
  | _ => false

/-- The answers the spill gets, in order. -/
def spillAnswers (turns : List Turn) : List Env :=
  turns.filterMap fun
    | .spill e => some e
    | _ => none

/-- The spill has returned when the put takes its turn. -/
def Race.putAfterSpill (r : Race) (turns : List Turn) : Bool :=
  (r.run (turns.takeWhile fun t => !t.isPut)).spill.isDone

/-- Some answer to a file operation is a failure; `script` tells which segments wait for one. -/
def someFileOpFails : List Bool → List Env → Bool
  | waits :: script, e :: answers => waits && !e.ok || someFileOpFails script answers
  | _, _ => false

/-- The segments of a spill after its first: each of `mkdir`, the temporary file and the rename
    takes effect in one and the spill goes on in the next. -/
def spillScript : List Bool := [true, false, true, false, true, false]

/-! ## The segments of a spill -/

section

variable (addr : BlockAddress) (bytes : Bytes) (model : String)

/-- The file operation under way, with what follows it. -/
def pending (possible : Store → Bool) (effect : Store → Store)
    (next : Bool → Code Env Store (Except Failure Unit)) : Task Env Store (Except Failure Unit) :=
  .await (fun e s => if e.ok && possible s then effect s else s)
    (fun e s => (next (e.ok && possible s)).task)

def afterRename (renamed : Bool) : Code Env Store (Except Failure Unit) :=
  (if renamed then pure (.ok ()) else pure (.error .rename)) >>= afterWrite addr bytes model

def afterTmp (written : Bool) : Code Env Store (Except Failure Unit) :=
  (if written then renameTmp addr else pure (.error .writeTmp)) >>= afterWrite addr bytes model

def afterMkdir (made : Bool) : Code Env Store (Except Failure Unit) :=
  (if made then writeTmp addr bytes else pure (.error .mkdir)) >>= afterWrite addr bytes model

/-- Where a spill stands after its first segment. -/
inductive Pc where
  | mkdir
  | made (ok : Bool)
  | tmp
  | wrote (ok : Bool)
  | rename
  | renamed (ok : Bool)

def Pc.task : Pc → Task Env Store (Except Failure Unit)
  | .mkdir => pending (fun _ => true) id (afterMkdir addr bytes model)
  | .made ok => (afterMkdir addr bytes model ok).task
  | .tmp =>
    pending (fun _ => true) (fun s => { s with files := s.files.insert (tmpFor addr) bytes })
      (afterTmp addr bytes model)
  | .wrote ok => (afterTmp addr bytes model ok).task
  | .rename =>
    pending (fun s => (s.files.lookup (tmpFor addr)).isSome)
      (fun s => SsdTier.rename s (tmpFor addr) (pathFor addr)) (afterRename addr bytes model)
  | .renamed ok => (afterRename addr bytes model ok).task

end

variable {addr : BlockAddress} {bytes : Bytes} {model : String}

theorem spillToSsd_start {s : Store} (hb : s.ram.bytesAt addr = some bytes) (e : Env) :
    Store.spillToSsd addr model e s =
      ({ s with ram := s.ram.touch e.now addr }, Pc.mkdir.task addr bytes model) := by
  unfold Store.spillToSsd
  rw [Code.bind_answer, Code.bind_get, hb]
  rfl

/-- What the files hold while a spill stands at a position it reached without a failure. -/
def Pc.Files (addr : BlockAddress) (bytes : Bytes) (s : Store) : Pc → Prop
  | .wrote true => s.files.lookup (tmpFor addr) = some bytes
  | .rename => s.files.lookup (tmpFor addr) = some bytes
  | .renamed true => s.files.lookup (pathFor addr) = some bytes
  | _ => True

/-- Whether the spill fails, from where it stands and with the answers it will get. -/
def Pc.fails (answers : List Env) : Pc → Bool
  | .mkdir => someFileOpFails spillScript answers
  | .made ok => !ok || someFileOpFails (spillScript.drop 1) answers
  | .tmp => someFileOpFails (spillScript.drop 2) answers
  | .wrote ok => !ok || someFileOpFails (spillScript.drop 3) answers
  | .rename => someFileOpFails (spillScript.drop 4) answers
  | .renamed ok => !ok || someFileOpFails (spillScript.drop 5) answers

/-- A file operation that can succeed does so as its answer says. -/
theorem step_pending {possible : Store → Bool} {effect : Store → Store}
    {next : Bool → Code Env Store (Except Failure Unit)} (e : Env) {s : Store}
    (hposs : possible s = true) :
    (pending possible effect next).step e s = (if e.ok then effect s else s, (next e.ok).task) := by
  show (if e.ok && possible s then effect s else s, (next (e.ok && possible s)).task) = _
  rw [hposs, Bool.and_true]

/-- Writing the temporary file decides whether the spill goes on. -/
theorem Pc.fails_tmp (e : Env) (answers : List Env) :
    Pc.tmp.fails (e :: answers) = (Pc.wrote e.ok).fails answers := by
  cases hok : e.ok <;> simp [Pc.fails, spillScript, someFileOpFails, hok]

/-- So does the rename. -/
theorem Pc.fails_rename (e : Env) (answers : List Env) :
    Pc.rename.fails (e :: answers) = (Pc.renamed e.ok).fails answers := by
  cases hok : e.ok <;> simp [Pc.fails, spillScript, someFileOpFails, hok]

/-- One segment of a spill: it goes on without touching RAM, or it returns a failure and leaves
    the store alone, or it lets go of RAM with the file written. -/
theorem step_task (pc : Pc) (e : Env) {s : Store} (hfiles : pc.Files addr bytes s) :
    (∃ (pc' : Pc) (s' : Store), (pc.task addr bytes model).step e s =
        (s', pc'.task addr bytes model) ∧
      s'.ram = s.ram ∧ pc'.Files addr bytes s' ∧
      ∀ answers, pc.fails (e :: answers) = pc'.fails answers) ∨
    (∃ f, (pc.task addr bytes model).step e s = (s, .done (.error f)) ∧
      ∀ answers, pc.fails answers = true) ∨
    ((pc.task addr bytes model).step e s =
        (s.spilled e.now addr bytes model, .done (.ok ())) ∧
      s.files.lookup (pathFor addr) = some bytes ∧ ∀ answers, pc.fails (e :: answers) = false) := by
  cases pc with
  | mkdir =>
    refine Or.inl ⟨.made e.ok, s, ?_, rfl, trivial, fun _ => rfl⟩
    rw [Pc.task, step_pending e rfl, id, ite_self]
    rfl
  | made ok =>
    cases ok with
    | true => exact Or.inl ⟨.tmp, s, rfl, rfl, trivial, fun _ => rfl⟩
    | false => exact Or.inr (Or.inl ⟨.mkdir, rfl, fun _ => rfl⟩)
  | tmp =>
    have hstep : (Pc.tmp.task addr bytes model).step e s =
        (if e.ok then { s with files := s.files.insert (tmpFor addr) bytes } else s,
          (Pc.wrote e.ok).task addr bytes model) := step_pending e rfl
    cases hok : e.ok with
    | true =>
      rw [hok] at hstep
      refine Or.inl ⟨.wrote true, _, hstep, rfl, AList.lookup_insert _, fun _ => ?_⟩
      rw [Pc.fails_tmp, hok]
    | false =>
      rw [hok] at hstep
      refine Or.inl ⟨.wrote false, _, hstep, rfl, trivial, fun _ => ?_⟩
      rw [Pc.fails_tmp, hok]
  | wrote ok =>
    cases ok with
    | true => exact Or.inl ⟨.rename, s, rfl, rfl, hfiles, fun _ => rfl⟩
    | false => exact Or.inr (Or.inl ⟨.writeTmp, rfl, fun _ => rfl⟩)
  | rename =>
    have htmp : s.files.lookup (tmpFor addr) = some bytes := hfiles
    have hstep : (Pc.rename.task addr bytes model).step e s =
        (if e.ok then SsdTier.rename s (tmpFor addr) (pathFor addr) else s,
          (Pc.renamed e.ok).task addr bytes model) := step_pending e (by rw [htmp]; rfl)
    have hrename : SsdTier.rename s (tmpFor addr) (pathFor addr) =
        { s with files := (s.files.erase (tmpFor addr)).insert (pathFor addr) bytes } := by
      unfold SsdTier.rename
      rw [htmp]
    rw [hrename] at hstep
    cases hok : e.ok with
    | true =>
      rw [hok] at hstep
      refine Or.inl ⟨.renamed true, _, hstep, rfl, AList.lookup_insert _, fun _ => ?_⟩
      rw [Pc.fails_rename, hok]
    | false =>
      rw [hok] at hstep
      refine Or.inl ⟨.renamed false, _, hstep, rfl, trivial, fun _ => ?_⟩
      rw [Pc.fails_rename, hok]
  | renamed ok =>
    cases ok with
    | true =>
      refine Or.inr (Or.inr ⟨rfl, hfiles, fun _ => ?_⟩)
      simp [Pc.fails, spillScript, someFileOpFails]
    | false => exact Or.inr (Or.inl ⟨.rename, rfl, fun _ => rfl⟩)

theorem isDone_task (pc : Pc) : (pc.task addr bytes model).isDone = false := by
  cases pc <;> rfl

/-! ## How a race ends -/

theorem step_done {α : Type} {t : Task Env Store α} (h : t.isDone = true) (e : Env) (s : Store) :
    t.step e s = (s, t) := by
  cases t with
  | done a => rfl
  | await effect next => exact absurd h (by simp [Task.isDone])

/-- What the store holds at the end: the put's bytes in RAM, or only the spilled bytes on disk. -/
def Outcome (addr : BlockAddress) (spilled put : Bytes) (s : Store) (survives : Bool) : Prop :=
  if survives then s.ram.bytesAt addr = some put
  else s.ram.bytesAt addr = none ∧ s.files.lookup (pathFor addr) = some spilled

namespace Race

variable {r : Race} {put : Bytes} {putModel : String}

theorem run_cons (r : Race) (t : Turn) (turns : List Turn) :
    r.run (t :: turns) = (r.step t).run turns := rfl

theorem step_spill {t : Task Env Store (Except Failure Unit)} (h : r.spill = t) (e : Env) :
    r.step (.spill e) =
      { r with spill := (t.step e r.store).2, store := (t.step e r.store).1 } := by
  rw [← h]
  rfl

theorem step_spill_done (h : r.spill.isDone = true) (e : Env) : r.step (.spill e) = r := by
  rw [step_spill rfl, step_done h]

theorem step_put (h : r.put = (Store.putRam addr put putModel).task) (e : Env) :
    r.step (.put e) =
      { r with put := .done (), store := r.store.admitRam e.now addr put putModel } := by
  show { r with put := (r.put.step e r.store).2, store := (r.put.step e r.store).1 } = _
  rw [h]
  rfl

theorem step_put_done (h : r.put.isDone = true) (e : Env) : r.step (.put e) = r := by
  show { r with put := (r.put.step e r.store).2, store := (r.put.step e r.store).1 } = _
  rw [step_done h]

theorem step_rest_idle (h : (r.spill.isDone && !r.put.isDone) = false) (g : Store → Store) :
    r.step (.rest g) = r := by
  show (if (r.spill.isDone && !r.put.isDone) = true then _ else r) = r
  rw [h, if_neg Bool.false_ne_true]

theorem not_bothReturned_of_running (h : r.spill.isDone = false) : ¬ r.bothReturned = true := by
  unfold bothReturned
  rw [h, Bool.false_and]
  exact Bool.false_ne_true

theorem run_of_bothReturned (h : r.bothReturned = true) (turns : List Turn) : r.run turns = r := by
  obtain ⟨hspill, hput⟩ := Bool.and_eq_true_iff.mp h
  have hstep : ∀ t, r.step t = r := by
    intro t
    cases t with
    | spill e => exact step_spill_done hspill e
    | put e => exact step_put_done hput e
    | rest g => exact step_rest_idle (by rw [hput, Bool.not_true, Bool.and_false]) g
  induction turns with
  | nil => rfl
  | cons t turns ih => rw [run_cons, hstep, ih]

/-- A spill that has returned stays so. -/
theorem isDone_run (h : r.spill.isDone = true) (turns : List Turn) :
    (r.run turns).spill.isDone = true := by
  induction turns generalizing r with
  | nil => exact h
  | cons t turns ih =>
    rw [run_cons]
    cases t with
    | spill e => exact ih (by rw [step_spill_done h]; exact h)
    | put e => exact ih h
    | rest g =>
      refine ih ?_
      show (if (r.spill.isDone && !r.put.isDone) = true then _ else r).spill.isDone = true
      split <;> exact h

theorem bytesAt_admitRam (s : Store) (now : Nat) :
    (s.admitRam now addr put putModel).ram.bytesAt addr = some put :=
  (RamTier.bytesAt_put s.ram now addr addr put).trans (if_pos rfl)

/-- The put has landed while the spill was under way: it survives if the spill fails. -/
theorem outcome_of_landed (pc : Pc) (turns : List Turn) (hput : r.put.isDone = true)
    (hspill : r.spill = pc.task addr bytes model) (hram : r.store.ram.bytesAt addr = some put)
    (hfiles : pc.Files addr bytes r.store) (hboth : (r.run turns).bothReturned = true) :
    Outcome addr bytes put (r.run turns).store (pc.fails (spillAnswers turns)) := by
  have hrunning : r.spill.isDone = false := by rw [hspill, isDone_task]
  induction turns generalizing r pc with
  | nil => exact absurd hboth (not_bothReturned_of_running hrunning)
  | cons t turns ih =>
    rw [run_cons] at hboth ⊢
    cases t with
    | put e =>
      rw [step_put_done hput] at hboth ⊢
      exact ih pc hput hspill hram hfiles hboth hrunning
    | rest g =>
      rw [step_rest_idle (by rw [hrunning, Bool.false_and])] at hboth ⊢
      exact ih pc hput hspill hram hfiles hboth hrunning
    | spill e =>
      rw [step_spill hspill] at hboth ⊢
      show Outcome _ _ _ _ (pc.fails (e :: spillAnswers turns))
      rcases step_task pc e hfiles with
        ⟨pc', s', hstep, hsame, hfiles', hfails⟩ | ⟨f, hstep, hfails⟩ | ⟨hstep, hfile, hfails⟩
      · rw [hstep] at hboth ⊢
        rw [hfails]
        exact ih pc' hput rfl (by rw [← hram, ← hsame]) hfiles' hboth (isDone_task pc')
      · rw [hstep, run_of_bothReturned, hfails]
        · exact hram
        · exact Bool.and_eq_true_iff.mpr ⟨rfl, hput⟩
      · rw [hstep, run_of_bothReturned, hfails]
        · exact ⟨(RamTier.bytesAt_evict r.store.ram addr addr).trans (if_pos rfl), hfile⟩
        · exact Bool.and_eq_true_iff.mpr ⟨rfl, hput⟩

/-- The put lands after the spill has returned, whatever happened in between. -/
theorem outcome_of_returned (turns : List Turn) (hspill : r.spill.isDone = true)
    (hput : r.put = (Store.putRam addr put putModel).task)
    (hboth : (r.run turns).bothReturned = true) :
    (r.run turns).store.ram.bytesAt addr = some put := by
  induction turns generalizing r with
  | nil =>
    have hdone : r.put.isDone = true := (Bool.and_eq_true_iff.mp hboth).2
    rw [hput] at hdone
    exact absurd hdone Bool.false_ne_true
  | cons t turns ih =>
    rw [run_cons] at hboth ⊢
    cases t with
    | spill e =>
      rw [step_spill_done hspill] at hboth ⊢
      exact ih hspill hput hboth
    | rest g =>
      have hnext : r.step (.rest g) = { r with store := g r.store } := by
        show (if (r.spill.isDone && !r.put.isDone) = true then _ else r) = _
        rw [hspill, hput]
        rfl
      rw [hnext] at hboth ⊢
      exact ih hspill hput hboth
    | put e =>
      rw [step_put hput, run_of_bothReturned]
      · exact bytesAt_admitRam r.store e.now
      · exact Bool.and_eq_true_iff.mpr ⟨hspill, rfl⟩

/-- A race from any position of the spill: the put survives if it lands after the spill has
    returned, or if the spill fails. -/
theorem outcome (pc : Pc) (turns : List Turn) (hspill : r.spill = pc.task addr bytes model)
    (hput : r.put = (Store.putRam addr put putModel).task) (hfiles : pc.Files addr bytes r.store)
    (hboth : (r.run turns).bothReturned = true) :
    Outcome addr bytes put (r.run turns).store
      (r.putAfterSpill turns || pc.fails (spillAnswers turns)) := by
  have hrunning : r.spill.isDone = false := by rw [hspill, isDone_task]
  induction turns generalizing r pc with
  | nil => exact absurd hboth (not_bothReturned_of_running hrunning)
  | cons t turns ih =>
    rw [run_cons] at hboth ⊢
    cases t with
    | put e =>
      -- the put lands here, before the spill has returned
      have hbefore : r.putAfterSpill (.put e :: turns) = false := hrunning
      rw [hbefore, Bool.false_or]
      rw [step_put hput] at hboth ⊢
      refine outcome_of_landed pc turns rfl hspill (bytesAt_admitRam r.store e.now) ?_ hboth
      cases pc <;> exact hfiles
    | rest g =>
      have hidle := step_rest_idle (r := r) (by rw [hrunning, Bool.false_and]) g
      have hafter : r.putAfterSpill (.rest g :: turns) = r.putAfterSpill turns := by
        show (r.step (.rest g)).putAfterSpill turns = _
        rw [hidle]
      rw [hafter]
      rw [hidle] at hboth ⊢
      exact ih pc hspill hput hfiles hboth hrunning
    | spill e =>
      have hafter : r.putAfterSpill (.spill e :: turns) =
          (r.step (.spill e)).putAfterSpill turns := rfl
      rw [hafter]
      rw [step_spill hspill] at hboth ⊢
      show Outcome _ _ _ _ (_ || pc.fails (e :: spillAnswers turns))
      rcases step_task pc e hfiles with
        ⟨pc', s', hstep, _, hfiles', hfails⟩ | ⟨f, hstep, hfails⟩ | ⟨hstep, _, _⟩
      · rw [hstep] at hboth ⊢
        rw [hfails]
        exact ih pc' rfl hput hfiles' hboth (isDone_task pc')
      · rw [hstep] at hboth ⊢
        rw [hfails, Bool.or_true]
        exact outcome_of_returned turns rfl hput hboth
      · rw [hstep] at hboth ⊢
        have hdone : ∀ r : Race, r.spill.isDone = true → r.putAfterSpill turns = true :=
          fun r h => isDone_run h _
        rw [hdone _ rfl, Bool.true_or]
        exact outcome_of_returned turns rfl hput hboth

/-- What a lookup finds at the end of a race. -/
theorem lookup_of_outcome {s s' : Store} {survives : Bool} {found : Option Bytes}
    (h : Outcome addr bytes put s survives)
    (hrun : (Store.lookupWithPromote addr).Runs AllOk s found s') :
    found = some (if survives then put else bytes) := by
  have hwp : (Store.lookupWithPromote addr).wp AllOk
      (fun found _ => found = some (if survives then put else bytes)) s := by
    cases survives with
    | true =>
      have hram : s.ram.bytesAt addr = some put := h
      refine Store.wp_lookupWithPromote ?_ ?_ ?_
      · intro b hb _
        rw [← hb, hram]
        rfl
      · intro hnone
        exact absurd (hnone.symm.trans hram) (by simp)
      · intro hnone
        exact absurd (hnone.symm.trans hram) (by simp)
    | false =>
      obtain ⟨hnone, hfile⟩ : s.ram.bytesAt addr = none ∧
        s.files.lookup (pathFor addr) = some bytes := h
      refine Store.wp_lookupWithPromote ?_ ?_ ?_
      · intro b hb
        exact absurd (hb.symm.trans hnone) (by simp)
      · intro _ b hb _
        rw [← hb, hfile]
        rfl
      · intro _ hmiss
        exact absurd (hmiss.symm.trans hfile) (by simp)
  have hfound := Code.Runs.of_wp hrun hwp
  exact hfound

/-- The end of a race that started with `bytes` in RAM. -/
theorem outcome_of_start {s : Store} (e : Env) (hstart : s.ram.bytesAt addr = some bytes)
    (turns : List Turn)
    (hboth : ((start s e addr model put putModel).run turns).bothReturned = true) :
    Outcome addr bytes put ((start s e addr model put putModel).run turns).store
      ((start s e addr model put putModel).putAfterSpill turns ||
        someFileOpFails spillScript (spillAnswers turns)) := by
  have hspill : (start s e addr model put putModel).spill = Pc.mkdir.task addr bytes model := by
    unfold start
    rw [spillToSsd_start hstart]
  exact outcome .mkdir turns hspill rfl trivial hboth

/-- A put against a spill that started when RAM held `v₁`: once both have returned,
    `lookup_with_promote` finds the put's bytes `v₂` exactly if the put landed after the spill
    had returned, or a file operation of the spill failed, or `v₁` is `v₂`. -/
theorem put_survives_iff (s : Store) (e : Env) (addr : BlockAddress) (v₁ v₂ : Bytes)
    (model putModel : String) (turns : List Turn) (hstart : s.ram.bytesAt addr = some v₁)
    (hboth : ((start s e addr model v₂ putModel).run turns).bothReturned = true) :
    (∀ found s', (Store.lookupWithPromote addr).Runs AllOk
        ((start s e addr model v₂ putModel).run turns).store found s' → found = some v₂) ↔
      (start s e addr model v₂ putModel).putAfterSpill turns = true ∨
        someFileOpFails spillScript (spillAnswers turns) = true ∨ v₁ = v₂ := by
  have hend := outcome_of_start e hstart turns hboth
  rw [← or_assoc, ← Bool.or_eq_true]
  cases hsurvives : ((start s e addr model v₂ putModel).putAfterSpill turns ||
      someFileOpFails spillScript (spillAnswers turns)) with
  | true =>
    rw [hsurvives] at hend
    constructor
    · exact fun _ => Or.inl rfl
    · exact fun _ found s' hrun => lookup_of_outcome hend hrun
  | false =>
    rw [hsurvives] at hend
    constructor
    · intro hall
      obtain ⟨found, s', hrun⟩ := Code.exists_runs (show AllOk okEnv from rfl)
        (Store.lookupWithPromote addr) ((start s e addr model v₂ putModel).run turns).store
      have hfound := hall found s' hrun
      rw [lookup_of_outcome hend hrun] at hfound
      exact Or.inr (Option.some.inj hfound)
    · rintro (h | rfl) found s' hrun
      · exact absurd h Bool.false_ne_true
      · exact lookup_of_outcome hend hrun

/-- A store with one block in RAM. -/
def oneBlock (addr : BlockAddress) (bytes : Bytes) : Store :=
  (Store.new 0).admitRam 0 addr bytes ""

/-- An address. -/
def someAddr : BlockAddress where
  digest := Vector.replicate 32 7
  layer := 0

/-- The put lands after the last segment of the spill. -/
theorem put_survives_after_spill :
    (oneBlock someAddr [1]).ram.bytesAt someAddr = some [1] ∧
      ∀ found s', (Store.lookupWithPromote someAddr).Runs AllOk
        ((start (oneBlock someAddr [1]) okEnv someAddr "" [2] "").run
          (List.replicate 6 (.spill okEnv) ++ [.put okEnv])).store found s' → found = some [2] :=
  ⟨by decide, (put_survives_iff (oneBlock someAddr [1]) okEnv someAddr [1] [2] "" "" _ (by decide)
    (by decide +kernel)).mpr (Or.inl (by decide +kernel))⟩

/-- The put lands while the spill waits for its first file operation, and is lost. -/
theorem put_lost_to_spill :
    ¬ ∀ (s : Store) (e : Env) (addr : BlockAddress) (v₁ v₂ : Bytes) (model putModel : String)
      (turns : List Turn), s.ram.bytesAt addr = some v₁ →
      ((start s e addr model v₂ putModel).run turns).bothReturned = true →
      ∀ found s', (Store.lookupWithPromote addr).Runs AllOk
        ((start s e addr model v₂ putModel).run turns).store found s' → found = some v₂ := by
  intro h
  have hstart : (oneBlock someAddr [1]).ram.bytesAt someAddr = some [1] := by decide
  have hboth : ((start (oneBlock someAddr [1]) okEnv someAddr "" [2] "").run
      (.put okEnv :: List.replicate 6 (.spill okEnv))).bothReturned = true := by decide +kernel
  obtain ⟨found, s', hrun⟩ := Code.exists_runs (show AllOk okEnv from rfl)
    (Store.lookupWithPromote someAddr)
    ((start (oneBlock someAddr [1]) okEnv someAddr "" [2] "").run
      (.put okEnv :: List.replicate 6 (.spill okEnv))).store
  have hv₁ := lookup_of_outcome (outcome_of_start okEnv hstart _ hboth) hrun
  rw [h _ _ _ _ _ _ _ _ hstart hboth found s' hrun] at hv₁
  exact absurd hv₁ (by decide +kernel)

end Race

end Cognitora.KvCached.Store
