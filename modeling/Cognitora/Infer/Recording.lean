/-
  The scheduler cannot tell a runtime from a translation of it.

  If `f` translates the states of a runtime `M` to those of `N` call by call
  (`BatchModel.Hom`), then every operation of the scheduler over `N` is the one over `M`
  with its runtime state translated. `run_recorded`: a run behind the recorder is the run
  without it. What is proved about histories of `M.recorded` is about every run of `M`.
-/
import Cognitora.Infer.Scheduler

namespace Cognitora.Infer.Scheduler

variable {μ ν Λ σ : Type}

/-- `s` with its runtime state translated. -/
def mapModel (f : μ → ν) (s : Scheduler μ σ) : Scheduler ν σ where
  model := f s.model
  cfg := s.cfg
  pool := s.pool
  waiting := s.waiting
  running := s.running
  nextId := s.nextId
  tick := s.tick
  sent := s.sent
  badSlice := s.badSlice

variable {M : BatchModel μ Λ} {N : BatchModel ν Λ} {f : μ → ν}

/-! ## Operations that do not call the runtime -/

theorem send_mapModel (s : Scheduler μ σ) (id : Nat) (tx : Tx) (ev : StreamEvent) :
    (mapModel f s).send id tx ev = ((s.send id tx ev).1, mapModel f (s.send id tx ev).2) := by
  unfold send
  dsimp only [mapModel]
  split
  · split <;> rfl
  · rfl

theorem sliceText_mapModel (s : Scheduler μ σ) (text : Text) (a b : Nat) :
    (mapModel f s).sliceText text a b =
      ((s.sliceText text a b).1, mapModel f (s.sliceText text a b).2) := by
  unfold sliceText
  split <;> rfl

theorem emitNew_mapModel (s : Scheduler μ σ) (idx : Nat) (q : Sequence σ) (text : Text) :
    emitNew (mapModel f s) idx q text =
      ((emitNew s idx q text).1, mapModel f (emitNew s idx q text).2) := by
  unfold emitNew
  split
  · dsimp only
    split
    · rw [sliceText_mapModel]
      generalize s.sliceText text q.emittedLen (heldBackLen text q.req.stop) = d
      have hsend := send_mapModel (f := f)
        { d.2 with
          running := d.2.running.set idx { q with emittedLen := heldBackLen text q.req.stop } }
        q.id q.req.tx
        { delta := d.1, finishReason := none,
          promptTokens := q.promptLen, completionTokens := q.generated.length }
      exact congrArg (fun r : Bool × Scheduler ν σ => (!r.1, r.2)) hsend
    · rfl
  · rfl

theorem admitOne_mapModel (s : Scheduler μ σ) :
    admitOne (mapModel f s) = (admitOne s).map (mapModel f) := by
  unfold admitOne
  by_cases hlt : s.running.length < s.cfg.maxBatch
  · have hlt' : (mapModel f s).running.length < (mapModel f s).cfg.maxBatch := hlt
    rw [if_pos hlt, if_pos hlt', show (mapModel f s).waiting = s.waiting from rfl]
    cases s.waiting with
    | nil => rfl
    | cons q rest =>
      dsimp only
      rw [show (mapModel f s).pool = s.pool from rfl]
      split <;> rfl
  · have hlt' : ¬ (mapModel f s).running.length < (mapModel f s).cfg.maxBatch := hlt
    rw [if_neg hlt, if_neg hlt']
    rfl

theorem admitRounds_mapModel (n : Nat) (s : Scheduler μ σ) :
    admitRounds n (mapModel f s) = mapModel f (admitRounds n s) := by
  induction n generalizing s with
  | zero => rfl
  | succ n ih =>
    unfold admitRounds
    rw [admitOne_mapModel]
    cases admitOne s with
    | none => rfl
    | some t => exact ih t

theorem admitWaiting_mapModel (s : Scheduler μ σ) :
    admitWaiting (mapModel f s) = mapModel f (admitWaiting s) :=
  admitRounds_mapModel s.waiting.length s

/-! ## Operations that release a sequence -/

variable (H : M.Hom N f)

include H

theorem removeRunning_mapModel (s : Scheduler μ σ) (idx : Nat) (q : Sequence σ) :
    removeRunning N (mapModel f s) idx q = mapModel f (removeRunning M s idx q) := by
  unfold removeRunning
  dsimp only [mapModel]
  rw [H.dropSeq]

theorem preempt_mapModel (s : Scheduler μ σ) (id : Nat) :
    preempt N (mapModel f s) id = mapModel f (preempt M s id) := by
  unfold preempt
  rw [show (mapModel f s).running = s.running from rfl]
  split
  · rfl
  · next idx _ =>
    cases s.running[idx]? with
    | none => rfl
    | some q =>
      dsimp only
      rw [removeRunning_mapModel H]
      rfl

theorem finish_mapModel (s : Scheduler μ σ) (idx : Nat) (reason : FinishReason) :
    finish N (mapModel f s) idx reason = mapModel f (finish M s idx reason) := by
  unfold finish
  rw [show (mapModel f s).running = s.running from rfl]
  cases s.running[idx]? with
  | none => rfl
  | some q =>
    dsimp only
    rw [removeRunning_mapModel H]
    generalize removeRunning M s idx q = t
    by_cases hr : reason = .length
    · rw [if_pos hr, if_pos hr]
      cases q.req.tokenizer q.generated with
      | none => rw [send_mapModel]
      | some text =>
        dsimp only
        by_cases hlt : q.emittedLen < byteLen text
        · rw [if_pos hlt, if_pos hlt, sliceText_mapModel]
          dsimp only
          rw [send_mapModel]
          dsimp only
          rw [send_mapModel]
        · rw [if_neg hlt, if_neg hlt, send_mapModel]
    · rw [if_neg hr, if_neg hr, send_mapModel]

theorem finishSilent_mapModel (s : Scheduler μ σ) (idx : Nat) :
    finishSilent N (mapModel f s) idx = mapModel f (finishSilent M s idx) := by
  unfold finishSilent
  rw [show (mapModel f s).running = s.running from rfl]
  cases s.running[idx]? with
  | none => rfl
  | some q => exact removeRunning_mapModel H s idx q

theorem stopAt_mapModel (s : Scheduler μ σ) (idx : Nat) (q : Sequence σ) (text : Text)
    (hit : Nat) :
    stopAt N (mapModel f s) idx q text hit = mapModel f (stopAt M s idx q text hit) := by
  unfold stopAt
  rw [sliceText_mapModel]
  dsimp only
  split
  · exact finish_mapModel H _ idx .stop
  · rw [← finish_mapModel H]
    congr 1
    exact congrArg Prod.snd (send_mapModel
      { (s.sliceText text 0 hit).2 with
        running := (s.sliceText text 0 hit).2.running.set idx { q with emittedLen := hit } }
      q.id q.req.tx _)

theorem emitOrFinish_mapModel (s : Scheduler μ σ) (idx : Nat) (q : Sequence σ) :
    emitOrFinish N (mapModel f s) idx q = mapModel f (emitOrFinish M s idx q) := by
  unfold emitOrFinish
  rw [H.maxSeqLen]
  split
  · exact finish_mapModel H s idx .error
  · next text _ =>
    split
    · exact stopAt_mapModel H s idx q text _
    · rw [emitNew_mapModel]
      dsimp only
      split
      · exact finishSilent_mapModel H _ idx
      · split
        · exact finish_mapModel H _ idx .length
        · rfl

theorem pushToken_mapModel (s : Scheduler μ σ) (idx : Nat) (token : Token) :
    pushToken N (mapModel f s) idx token = mapModel f (pushToken M s idx token) := by
  unfold pushToken
  rw [show (mapModel f s).running = s.running from rfl]
  cases s.running[idx]? with
  | none => rfl
  | some q =>
    dsimp only
    split
    · exact finish_mapModel H s idx .stop
    · exact emitOrFinish_mapModel H { s with running := s.running.set idx _ } idx _

theorem ensureRoom_mapModel (n : Nat) (s : Scheduler μ σ) (id need : Nat) :
    ensureRoom N n (mapModel f s) id need =
      ((ensureRoom M n s id need).1, mapModel f (ensureRoom M n s id need).2) := by
  induction n generalizing s with
  | zero => rfl
  | succ n ih =>
    have hset : ({ mapModel f s with pool := (s.pool.reserve id need).2 } : Scheduler ν σ) =
        mapModel f { s with pool := (s.pool.reserve id need).2 } := rfl
    unfold ensureRoom
    dsimp only
    rw [show (mapModel f s).pool = s.pool from rfl, hset,
      show (mapModel f s).running = s.running from rfl]
    split
    · rfl
    · split
      · rw [preempt_mapModel H, ih]
      · rw [preempt_mapModel H]

theorem roomFor_mapModel (s : Scheduler μ σ) (c : Nat × Nat) :
    roomFor N (mapModel f s) c = mapModel f (roomFor M s c) := by
  unfold roomFor
  rw [show (mapModel f s).running = s.running from rfl]
  split
  · rw [ensureRoom_mapModel H]
  · rfl

theorem makeRoom_mapModel (s : Scheduler μ σ) :
    makeRoom N (mapModel f s) = mapModel f (makeRoom M s) := by
  unfold makeRoom
  rw [show (mapModel f s).candidates = s.candidates from rfl]
  generalize s.candidates = cs
  induction cs generalizing s with
  | nil => rfl
  | cons c cs ih =>
    rw [List.foldl_cons, List.foldl_cons, roomFor_mapModel H]
    exact ih _

/-! ## Operations that feed the runtime -/

variable (sample : σ → Λ → List Token → Token × σ)

theorem prefillOneChunk_mapModel (s : Scheduler μ σ) :
    prefillOneChunk N sample (mapModel f s) = mapModel f (prefillOneChunk M sample s) := by
  unfold prefillOneChunk
  rw [show (mapModel f s).running = s.running from rfl]
  cases prefillTarget s.running with
  | none => rfl
  | some target =>
    obtain ⟨idx, q, d⟩ := target
    dsimp only
    rw [show chunkLen (mapModel f s) q d = chunkLen s q d from rfl,
      show (mapModel f s).model = f s.model from rfl, H.prefill]
    generalize M.prefill s.model q.id ((q.tokens.drop d).take (chunkLen s q d)) d
      (decide (chunkLen s q d = q.promptLen - d)) = res
    obtain ⟨out, m⟩ := res
    dsimp only
    split
    · next logits =>
      exact pushToken_mapModel H { s with
        model := m
        running := s.running.set idx
          { q with phase := .decode, sampler := (sample q.sampler logits q.tokens).2 } } idx _
    · rfl
    · exact finish_mapModel H { s with model := m } idx .error

theorem sampleAt_mapModel (s : Scheduler μ σ) (idx : Nat) (logits : Λ) :
    sampleAt N sample (mapModel f s) idx logits = mapModel f (sampleAt M sample s idx logits) := by
  unfold sampleAt
  rw [show (mapModel f s).running = s.running from rfl]
  cases s.running[idx]? with
  | none => rfl
  | some q =>
    exact pushToken_mapModel H { s with
      running := s.running.set idx
        { q with sampler := (sample q.sampler logits q.tokens).2 } } idx _

omit H in
/-- A translation that commutes with the body of a loop commutes with the loop. -/
theorem foldl_mapModel {β : Type} {g : Scheduler μ σ → β → Scheduler μ σ}
    {g' : Scheduler ν σ → β → Scheduler ν σ}
    (h : ∀ s b, g' (mapModel f s) b = mapModel f (g s b)) (bs : List β) (s : Scheduler μ σ) :
    bs.foldl g' (mapModel f s) = mapModel f (bs.foldl g s) := by
  induction bs generalizing s with
  | nil => rfl
  | cons b bs ih =>
    rw [List.foldl_cons, List.foldl_cons, h]
    exact ih _

theorem decodeBatched_mapModel (s : Scheduler μ σ) (batch : List (Nat × Nat × Token)) :
    decodeBatched N sample (mapModel f s) batch = mapModel f (decodeBatched M sample s batch) := by
  unfold decodeBatched
  dsimp only
  rw [show (mapModel f s).model = f s.model from rfl, H.decode]
  generalize M.decode s.model (modelBatch batch) = res
  obtain ⟨out, m⟩ := res
  dsimp only
  split
  · exact foldl_mapModel (fun t b => finish_mapModel H t b.1 .error) batch.reverse
      { s with model := m }
  · next rows =>
    exact foldl_mapModel (fun t b => sampleAt_mapModel H sample t b.1.1 b.2)
      (batch.zip rows).reverse { s with model := m }

theorem decodeStep_mapModel (s : Scheduler μ σ) :
    decodeStep N sample (mapModel f s) = mapModel f (decodeStep M sample s) := by
  unfold decodeStep
  rw [show (mapModel f s).candidates = s.candidates from rfl, makeRoom_mapModel H]
  split
  · rfl
  · dsimp only
    rw [show (mapModel f (makeRoom M s)).running = (makeRoom M s).running from rfl]
    split
    · rfl
    · exact decodeBatched_mapModel H sample _ _

theorem step_mapModel (s : Scheduler μ σ) :
    step N sample (mapModel f s) = mapModel f (step M sample s) := by
  unfold step
  rw [admitWaiting_mapModel, prefillOneChunk_mapModel H, decodeStep_mapModel H]

theorem enqueue_mapModel (s : Scheduler μ σ) (req : Request σ) :
    enqueue N (mapModel f s) req = mapModel f (enqueue M s req) := by
  unfold enqueue
  rw [H.maxSeqLen]
  dsimp only
  split
  · exact congrArg Prod.snd (send_mapModel { s with nextId := s.nextId + 1 } s.nextId req.tx _)
  · rfl

theorem act_mapModel (s : Scheduler μ σ) (a : Action σ) :
    act N sample (mapModel f s) a = mapModel f (act M sample s a) := by
  cases a with
  | enqueue req => exact enqueue_mapModel H s req
  | step => exact step_mapModel H sample s

theorem run_mapModel (model : μ) (cfg : SchedulerConfig) (acts : List (Action σ)) :
    run N sample (f model) cfg acts = mapModel f (run M sample model cfg acts) := by
  have hnew : (new N (f model) cfg : Scheduler ν σ) = mapModel f (new M model cfg) := by
    unfold new mapModel
    rw [H.maxBatch]
  unfold run
  rw [hnew]
  exact foldl_mapModel (act_mapModel H sample) acts _

omit H

/-- A run behind the recorder is the run without it. -/
theorem run_recorded (model : μ) (cfg : SchedulerConfig) (acts : List (Action σ)) :
    run M sample model cfg acts =
      mapModel Prod.fst (run M.recorded sample (model, []) cfg acts) :=
  run_mapModel M.recorded_hom sample (model, []) cfg acts

end Cognitora.Infer.Scheduler
