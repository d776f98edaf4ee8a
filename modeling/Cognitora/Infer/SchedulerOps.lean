/-
  What one operation of the scheduler does.

  `core` forgets what the clients saw. Up to `core`, `finish` and `finish_silent` take one
  running sequence out, and `push_token` either does that or appends one token to it
  (`pushToken_core`); where the text went, and which of the branches was taken, does not
  matter to the scheduling state. A running sequence is named by splitting the running
  list around it, `running = pre ++ q :: post`, its index being `pre.length`.
-/
import Cognitora.Infer.Scheduler

namespace Cognitora.Infer.Scheduler

variable {μ ν Λ σ : Type}

/-! ## Splitting the running list -/

theorem getElem?_mid {α : Type} (pre post : List α) (q : α) :
    (pre ++ q :: post)[pre.length]? = some q := by
  simp

theorem eraseIdx_mid {α : Type} (pre post : List α) (q : α) :
    (pre ++ q :: post).eraseIdx pre.length = pre ++ post := by
  simp [List.eraseIdx_append_of_length_le]

theorem set_mid {α : Type} (pre post : List α) (q r : α) :
    (pre ++ q :: post).set pre.length r = pre ++ r :: post := by
  simp

/-! ## The scheduling state -/

/-- The scheduler without what its clients saw. -/
def core (s : Scheduler μ σ) : Scheduler μ σ :=
  { s with sent := [], badSlice := false }

theorem core_eq_iff {s t : Scheduler μ σ} :
    s.core = t.core ↔ s.model = t.model ∧ s.cfg = t.cfg ∧ s.pool = t.pool ∧
      s.waiting = t.waiting ∧ s.running = t.running ∧ s.nextId = t.nextId ∧ s.tick = t.tick := by
  simp [core]

@[simp] theorem send_core (s : Scheduler μ σ) (id : Nat) (tx : Tx) (ev : StreamEvent) :
    (s.send id tx ev).2.core = s.core := by
  unfold send
  dsimp only
  split
  · split <;> rfl
  · rfl

@[simp] theorem sliceText_core (s : Scheduler μ σ) (text : Text) (a b : Nat) :
    (s.sliceText text a b).2.core = s.core := by
  unfold sliceText
  split <;> rfl

theorem core_setRunning {s t : Scheduler μ σ} (h : s.core = t.core) (r : List (Sequence σ)) :
    { s with running := r }.core = { t with running := r }.core := by
  rw [core_eq_iff] at h ⊢
  exact ⟨h.1, h.2.1, h.2.2.1, h.2.2.2.1, rfl, h.2.2.2.2.2⟩

theorem model_of_core {s t : Scheduler μ σ} (h : s.core = t.core) : s.model = t.model :=
  (core_eq_iff.mp h).1

theorem running_of_core {s t : Scheduler μ σ} (h : s.core = t.core) : s.running = t.running :=
  (core_eq_iff.mp h).2.2.2.2.1

/-- All sequences, `q` first. -/
theorem perm_mid {s : Scheduler μ σ} {pre post : List (Sequence σ)} {q : Sequence σ}
    (ws : List (Sequence σ)) (hr : s.running = pre ++ q :: post) :
    (ws ++ s.running).Perm (q :: (ws ++ (pre ++ post))) := by
  rw [hr, ← List.append_assoc, ← List.append_assoc]
  exact List.perm_middle

variable (M : BatchModel μ Λ)

/-- A submission leaves the runtime, the pool and the running sequences as they are. -/
theorem enqueue_frame (s : Scheduler μ σ) (req : Request σ) :
    (enqueue M s req).model = s.model ∧ (enqueue M s req).pool = s.pool ∧
      (enqueue M s req).running = s.running := by
  unfold Scheduler.enqueue
  dsimp only
  split
  · obtain ⟨e1, _, e3, _, e5, _⟩ := core_eq_iff.mp
      (send_core { s with nextId := s.nextId + 1 } s.nextId req.tx
        { delta := [], finishReason := some .error,
          promptTokens := req.promptTokens.length, completionTokens := 0 })
    exact ⟨e1, e3, e5⟩
  · exact ⟨rfl, rfl, rfl⟩

/-! ## Taking a sequence out -/

theorem removeRunning_core {s t : Scheduler μ σ} (h : s.core = t.core) (idx : Nat)
    {q r : Sequence σ} (hid : q.id = r.id) :
    (removeRunning M s idx q).core = (removeRunning M t idx r).core := by
  obtain ⟨h1, h2, h3, h4, h5, h6, h7⟩ := core_eq_iff.mp h
  rw [core_eq_iff]
  simp only [removeRunning, h1, h2, h3, h4, h5, h6, h7, hid, and_self]

theorem removeRunning_mid {s : Scheduler μ σ} {pre post : List (Sequence σ)} {q : Sequence σ}
    (h : s.running = pre ++ q :: post) :
    removeRunning M s pre.length q =
      { s with running := pre ++ post, pool := s.pool.release q.id,
               model := M.dropSeq s.model q.id } := by
  unfold removeRunning
  rw [h, eraseIdx_mid]

theorem finish_core {s : Scheduler μ σ} {pre post : List (Sequence σ)} {q : Sequence σ}
    (h : s.running = pre ++ q :: post) (reason : FinishReason) :
    (finish M s pre.length reason).core = (removeRunning M s pre.length q).core := by
  unfold finish
  rw [h, getElem?_mid]
  dsimp only
  rw [send_core]
  split
  · split
    · rfl
    · split
      · rw [send_core, sliceText_core]
      · rfl
  · rfl

theorem finishSilent_mid {s : Scheduler μ σ} {pre post : List (Sequence σ)} {q : Sequence σ}
    (h : s.running = pre ++ q :: post) :
    finishSilent M s pre.length = removeRunning M s pre.length q := by
  unfold finishSilent
  rw [h, getElem?_mid]

/-- Replacing a sequence by one of the same id just before it is taken out changes nothing. -/
theorem removeRunning_replaced {s t : Scheduler μ σ} {pre post : List (Sequence σ)}
    {q r : Sequence σ} (h : s.running = pre ++ q :: post) (hid : r.id = q.id)
    (ht : t.core = { s with running := pre ++ r :: post }.core) :
    (removeRunning M t pre.length r).core = (removeRunning M s pre.length q).core := by
  rw [removeRunning_core M ht pre.length (rfl : r.id = r.id),
    removeRunning_mid M (s := { s with running := pre ++ r :: post }) rfl,
    removeRunning_mid M h, hid]

/-! ## Appending a token -/

/-- `q` with one more generated token. -/
def grown (q : Sequence σ) (token : Token) : Sequence σ :=
  { q with generated := q.generated ++ [token], tokens := q.tokens ++ [token] }

theorem stopAt_core {s : Scheduler μ σ} {pre post : List (Sequence σ)} {q : Sequence σ}
    (h : s.running = pre ++ q :: post) (text : Text) (hit : Nat) :
    (stopAt M s pre.length q text hit).core = (removeRunning M s pre.length q).core := by
  unfold stopAt
  dsimp only
  have hs := sliceText_core s text 0 hit
  split
  · have hr : (s.sliceText text 0 hit).2.running = pre ++ q :: post :=
      (running_of_core hs).trans h
    rw [finish_core M hr, removeRunning_core M hs _ rfl]
  · -- the sequence is marked as flushed up to the hit before it is taken out
    have hset : (s.sliceText text 0 hit).2.running.set pre.length { q with emittedLen := hit } =
        pre ++ { q with emittedLen := hit } :: post := by
      rw [running_of_core hs, h, set_mid]
    rw [hset]
    generalize hu : ({ (s.sliceText text 0 hit).2 with
      running := pre ++ { q with emittedLen := hit } :: post } : Scheduler μ σ) = u
    have hu' : u.core = { s with running := pre ++ { q with emittedLen := hit } :: post }.core := by
      rw [← hu]
      exact core_setRunning hs _
    generalize hv : (u.send q.id q.req.tx _).2 = v
    have hv' : v.core = u.core := by rw [← hv, send_core]
    have hr : v.running = pre ++ { q with emittedLen := hit } :: post :=
      running_of_core (hv'.trans hu')
    rw [finish_core M hr]
    exact removeRunning_replaced M h rfl (hv'.trans hu')

theorem emitNew_core {s : Scheduler μ σ} {pre post : List (Sequence σ)} {q : Sequence σ}
    (h : s.running = pre ++ q :: post) (text : Text) :
    ∃ e, (emitNew s pre.length q text).2.core =
      { s with running := pre ++ { q with emittedLen := e } :: post }.core := by
  have hsame : s.core =
      { s with running := pre ++ { q with emittedLen := q.emittedLen } :: post }.core := by
    rw [core_eq_iff]
    exact ⟨rfl, rfl, rfl, rfl, h, rfl, rfl⟩
  unfold emitNew
  split
  · dsimp only
    split
    · refine ⟨heldBackLen text q.req.stop, ?_⟩
      have hs := sliceText_core s text q.emittedLen (heldBackLen text q.req.stop)
      rw [send_core, running_of_core hs, h, set_mid]
      exact core_setRunning hs _
    · exact ⟨q.emittedLen, hsame⟩
  · exact ⟨q.emittedLen, hsame⟩

theorem emitOrFinish_core {s : Scheduler μ σ} {pre post : List (Sequence σ)} {q : Sequence σ}
    (h : s.running = pre ++ q :: post) :
    (emitOrFinish M s pre.length q).core = (removeRunning M s pre.length q).core ∨
    (q.generated.length < q.budget M.maxSeqLen ∧
      ∃ e, (emitOrFinish M s pre.length q).core =
        { s with running := pre ++ { q with emittedLen := e } :: post }.core) := by
  unfold emitOrFinish
  split
  · exact Or.inl (finish_core M h _)
  · next text _ =>
    split
    · exact Or.inl (stopAt_core M h _ _)
    · obtain ⟨e, he⟩ := emitNew_core h text
      have hr := running_of_core he
      have hrem := removeRunning_replaced M (r := { q with emittedLen := e }) h rfl he
      dsimp only
      split
      · left
        rw [← hrem]
        exact congrArg core (finishSilent_mid M hr)
      · split
        · exact Or.inl ((finish_core M hr _).trans hrem)
        · next hb => exact Or.inr ⟨Nat.lt_of_not_le hb, e, he⟩

/-- `push_token` takes the sequence out, or appends the token to it; in the second case
    the budget is not used up. -/
theorem pushToken_core {s : Scheduler μ σ} {pre post : List (Sequence σ)} {q : Sequence σ}
    (h : s.running = pre ++ q :: post) (token : Token) :
    (pushToken M s pre.length token).core = (removeRunning M s pre.length q).core ∨
    (q.generated.length + 1 < q.budget M.maxSeqLen ∧
      ∃ e, (pushToken M s pre.length token).core =
        { s with running := pre ++ { grown q token with emittedLen := e } :: post }.core) := by
  unfold pushToken
  rw [h, getElem?_mid]
  dsimp only
  split
  · exact Or.inl (finish_core M h _)
  · rw [set_mid]
    rcases emitOrFinish_core M (s := { s with running := pre ++ grown q token :: post }) rfl with
      e | ⟨hb, e⟩
    · exact Or.inl (e.trans (removeRunning_replaced M h rfl rfl))
    · refine Or.inr ⟨?_, e⟩
      have hb : (q.generated ++ [token]).length < q.budget M.maxSeqLen := hb
      rwa [List.length_append, List.length_singleton] at hb

/-- What stands before the sequence is not touched. -/
theorem pushToken_split {s : Scheduler μ σ} {pre post : List (Sequence σ)} {q : Sequence σ}
    (h : s.running = pre ++ q :: post) (token : Token) :
    ∃ rest, (pushToken M s pre.length token).running = pre ++ rest := by
  rcases pushToken_core M h token with e | ⟨_, _, e⟩
  · rw [removeRunning_mid M h] at e
    exact ⟨post, running_of_core e⟩
  · exact ⟨_, running_of_core e⟩

/-- Sampling for a sequence is a push once its sampler has moved on. -/
theorem sampleAt_mid (sample : σ → Λ → List Token → Token × σ) {s : Scheduler μ σ}
    {pre post : List (Sequence σ)} {q : Sequence σ} (h : s.running = pre ++ q :: post)
    (logits : Λ) : sampleAt M sample s pre.length logits =
      pushToken M { s with
        running := pre ++ { q with sampler := (sample q.sampler logits q.tokens).2 } :: post }
        pre.length (sample q.sampler logits q.tokens).1 := by
  unfold sampleAt
  rw [h, getElem?_mid]
  dsimp only
  rw [set_mid]

/-! ## Finding a sequence -/

theorem prefillTarget_some {running : List (Sequence σ)} {idx done : Nat} {q : Sequence σ}
    (h : prefillTarget running = some (idx, q, done)) :
    ∃ pre post, running = pre ++ q :: post ∧ idx = pre.length ∧ q.phase = .prefill done := by
  induction running generalizing idx with
  | nil => simp [prefillTarget] at h
  | cons r rs ih =>
    unfold prefillTarget at h
    split at h
    · next d hd =>
      simp only [Option.some.injEq, Prod.mk.injEq] at h
      obtain ⟨rfl, rfl, rfl⟩ := h
      exact ⟨[], rs, rfl, rfl, hd⟩
    · obtain ⟨⟨i, x⟩, hx, he⟩ := Option.map_eq_some_iff.mp h
      simp only [Prod.mk.injEq] at he
      obtain ⟨rfl, rfl⟩ := he
      obtain ⟨pre, post, rfl, rfl, hp⟩ := ih hx
      exact ⟨r :: pre, post, rfl, rfl, hp⟩

theorem prefillTarget_none {running : List (Sequence σ)} (h : prefillTarget running = none) :
    ∀ q ∈ running, q.phase = .decode := by
  induction running with
  | nil => intro q hq; exact absurd hq (List.not_mem_nil)
  | cons r rs ih =>
    unfold prefillTarget at h
    split at h
    · exact absurd h (by simp)
    · next hd =>
      intro q hq
      rcases List.mem_cons.mp hq with rfl | hq
      · exact hd
      · exact ih (Option.map_eq_none_iff.mp h) q hq

/-- The state after the runtime was called for the next chunk of `q`. -/
def prefillCalled (s : Scheduler μ σ) (q : Sequence σ) (done : Nat) : Scheduler μ σ :=
  { s with
    model := (M.prefill s.model q.id ((q.tokens.drop done).take (chunkLen s q done)) done
      (decide (chunkLen s q done = q.promptLen - done))).2 }

/-- The runtime's answer to that call. -/
def prefillReply (s : Scheduler μ σ) (q : Sequence σ) (done : Nat) : Option (Option Λ) :=
  (M.prefill s.model q.id ((q.tokens.drop done).take (chunkLen s q done)) done
    (decide (chunkLen s q done = q.promptLen - done))).1

theorem chunkLen_le (s : Scheduler μ σ) (q : Sequence σ) (done : Nat) :
    chunkLen s q done ≤ q.promptLen - done :=
  Nat.min_le_left _ _

/-- `prefill_one_chunk` finds nothing to do; or it completes a prompt and pushes the first
    token; or it leaves chunks to do; or the call failed. -/
theorem prefillOneChunk_cases (sample : σ → Λ → List Token → Token × σ) (s : Scheduler μ σ) :
    (prefillTarget s.running = none ∧ prefillOneChunk M sample s = s) ∨
    ∃ pre q post d, s.running = pre ++ q :: post ∧ q.phase = .prefill d ∧
      prefillTarget s.running = some (pre.length, q, d) ∧
      ((chunkLen s q d = q.promptLen - d ∧
          ∃ logits, prefillReply M s q d = some (some logits) ∧ prefillOneChunk M sample s =
            pushToken M { prefillCalled M s q d with
              running := pre ++ { q with
                phase := .decode, sampler := (sample q.sampler logits q.tokens).2 } :: post }
              pre.length (sample q.sampler logits q.tokens).1) ∨
        (chunkLen s q d < q.promptLen - d ∧ prefillReply M s q d = some none ∧
          prefillOneChunk M sample s = { prefillCalled M s q d with
            running := pre ++ { q with phase := .prefill (d + chunkLen s q d) } :: post }) ∨
        (prefillReply M s q d = none ∧
          prefillOneChunk M sample s = finish M (prefillCalled M s q d) pre.length .error)) := by
  unfold prefillOneChunk
  cases ht : prefillTarget s.running with
  | none => exact Or.inl ⟨rfl, rfl⟩
  | some target =>
    obtain ⟨idx, q, d⟩ := target
    obtain ⟨pre, post, hr, rfl, hp⟩ := prefillTarget_some ht
    refine Or.inr ⟨pre, q, post, d, hr, hp, rfl, ?_⟩
    have hle := chunkLen_le s q d
    have hlogits := M.prefill_logits s.model q.id
      ((q.tokens.drop d).take (chunkLen s q d)) d (decide (chunkLen s q d = q.promptLen - d))
    dsimp only
    split
    · next logits hres =>
      refine Or.inl ⟨by simpa using hlogits _ hres, logits, hres, ?_⟩
      rw [hr, set_mid]
      rfl
    · next hres =>
      have hne : chunkLen s q d ≠ q.promptLen - d := by
        simpa using hlogits _ hres
      refine Or.inr (Or.inl ⟨by omega, hres, ?_⟩)
      rw [hr, set_mid]
      rfl
    · next hres => exact Or.inr (Or.inr ⟨hres, rfl⟩)

/-- `preempt` moves the running sequence with that id to the front of `waiting`. -/
theorem preempt_cases (s : Scheduler μ σ) (id : Nat) :
    (preempt M s id = s ∧ id ∉ s.running.map Sequence.id) ∨
    ∃ pre q post, s.running = pre ++ q :: post ∧ q.id = id ∧
      preempt M s id = { s with
        running := pre ++ post
        pool := s.pool.release id
        model := M.dropSeq s.model id
        waiting := { q with phase := .prefill 0 } :: s.waiting } := by
  unfold preempt
  cases hf : s.running.findIdx? (fun q => q.id == id) with
  | none =>
    refine Or.inl ⟨rfl, ?_⟩
    intro hm
    obtain ⟨q, hq, hid⟩ := List.mem_map.mp hm
    have := List.findIdx?_eq_none_iff.mp hf q hq
    simp [hid] at this
  | some idx =>
    right
    obtain ⟨hlt, hp, _⟩ := List.findIdx?_eq_some_iff_getElem.mp hf
    have hsplit := List.take_append_drop idx s.running
    rw [List.drop_eq_getElem_cons hlt] at hsplit
    have hlen : (s.running.take idx).length = idx := by simp; omega
    have hid : s.running[idx].id = id := by simpa using hp
    refine ⟨_, s.running[idx], _, hsplit.symm, hid, ?_⟩
    have hrem := removeRunning_mid M (s := s) hsplit.symm
    rw [hlen] at hrem
    dsimp only
    rw [List.getElem?_eq_getElem hlt]
    dsimp only
    rw [hrem, hid]

theorem youngest_mem {l : List (Sequence σ)} {q : Sequence σ} (h : youngest l = some q) :
    q ∈ l := by
  induction l generalizing q with
  | nil => simp [youngest] at h
  | cons r rs ih =>
    unfold youngest at h
    split at h
    · rw [Option.some.inj h]; exact List.mem_cons_self
    · next x hx =>
      split at h
      · rw [Option.some.inj h]; exact List.mem_cons_self
      · exact List.mem_cons_of_mem _ (ih (hx.trans h))

end Cognitora.Infer.Scheduler
