/-
  How many tokens a request generates, and where they go in the runtime.

  `budget` is compared with the number of generated tokens after a token was pushed. So a
  request with budget 0 still generates one token, and any other request stays within its budget
  (`budgeted_feed`). A budget of 0 means `max_tokens` 0, since a prompt that fills the context is
  rejected.

  Positions: a prefill feeds prompt tokens, at their places in the prompt; a decode call feeds
  each sequence one token right behind the KV held for it, which is shorter than the sequence.
-/
import Cognitora.Infer.Progress
import Cognitora.Infer.Refinement

namespace Cognitora.Infer

open Cognitora.Lib

/-! ## Generated tokens -/

namespace Stream

variable {σ : Type} {st : Stream σ} {maxSeqLen : Nat}

/-- One token past the budget at most, and only if the budget is 0. -/
structure Budgeted (maxSeqLen : Nat) (st : Stream σ) : Prop where
  le : st.generated.length ≤ max 1 (st.budget maxSeqLen)
  live : st.ended = none → st.generated = [] ∨ st.generated.length < st.budget maxSeqLen

theorem emitOrFinish_generated (st : Stream σ) (maxSeqLen : Nat) :
    (st.emitOrFinish maxSeqLen).generated = st.generated := by
  unfold emitOrFinish
  split
  · exact finish_generated _ _
  · next text _ =>
    split
    · exact stopAt_generated _ _ _
    · have hs := (st.onward_emitNew text).generated_eq
      dsimp only
      split
      · exact hs
      · split
        · rw [finish_generated]
          exact hs
        · exact hs

/-- A request that goes on after a token has not used up its budget. -/
theorem emitOrFinish_live (h : (st.emitOrFinish maxSeqLen).ended = none) :
    st.generated.length < st.budget maxSeqLen := by
  unfold emitOrFinish at h
  split at h
  · cases h
  · split at h
    · cases h
    · dsimp only at h
      split at h
      · cases h
      · split at h
        · cases h
        · next hb => exact Nat.lt_of_not_le hb

theorem budget_eq_of_req {st' : Stream σ} (h : st'.req = st.req) (maxSeqLen : Nat) :
    st'.budget maxSeqLen = st.budget maxSeqLen := by
  unfold budget
  rw [h]

theorem budgeted_finish (h : Budgeted maxSeqLen st) (ending : Ending) :
    Budgeted maxSeqLen (st.finish ending) := by
  refine ⟨?_, nofun⟩
  rw [finish_generated, budget_eq_of_req (finish_req st ending)]
  exact h.le

theorem budgeted_feed (h : Budgeted maxSeqLen st) (x : Input) :
    Budgeted maxSeqLen (st.feed maxSeqLen x) := by
  cases hended : st.ended with
  | some ending =>
    unfold feed
    rw [hended]
    exact h
  | none =>
    cases x with
    | failure =>
      rw [feed_failure hended]
      exact budgeted_finish h .failed
    | token t =>
      rw [feed_token hended]
      unfold push
      split
      · exact budgeted_finish h .eos
      · constructor
        · rw [emitOrFinish_generated, budget_eq_of_req (emitOrFinish_req _ _)]
          show (st.generated ++ [t]).length ≤ max 1 (st.budget maxSeqLen)
          rw [List.length_append, List.length_singleton]
          rcases h.live hended with hnil | hlt
          · rw [hnil]
            exact Nat.le_max_left _ _
          · omega
        · intro hlive
          rw [emitOrFinish_generated, budget_eq_of_req (emitOrFinish_req _ _)]
          exact Or.inr (emitOrFinish_live hlive)

theorem budgeted_run (maxSeqLen : Nat) (req : Request σ) (inputs : List Input) :
    Budgeted maxSeqLen (run maxSeqLen req inputs) := by
  refine List.foldlRecOn inputs _ ?_ fun st h x _ => budgeted_feed h x
  have hnil : (start maxSeqLen req).generated = [] := by
    unfold start
    dsimp only
    split <;> rfl
  exact ⟨by rw [hnil]; exact Nat.zero_le _, fun _ => Or.inl hnil⟩

/-- With a prompt that leaves room, the budget is kept unless `max_tokens` is 0. -/
theorem generated_le_iff {req : Request σ} (hlen : req.promptTokens.length < maxSeqLen)
    (inputs : List Input) :
    (run maxSeqLen req inputs).generated.length ≤
        min req.maxTokens (maxSeqLen - req.promptTokens.length) ↔
      req.maxTokens ≠ 0 ∨ (run maxSeqLen req inputs).generated = [] := by
  have hle := (budgeted_run maxSeqLen req inputs).le
  unfold budget at hle
  rw [run_req] at hle
  rw [← List.length_eq_zero_iff]
  omega

end Stream

/-! ## Positions -/

/-- The tokens of a call are stored at positions below `maxSeqLen`, given the KV held before it:
    `prefill` says where its tokens start, `decode` appends. -/
def Call.Within (maxSeqLen : Nat) (kv : Nat → Option Held) : Call → Prop
  | .prefill _ tokens startPos _ => startPos + tokens.length ≤ maxSeqLen
  | .decode batch => ∀ p ∈ batch,
      ((kv p.1).map fun h => h.tokens.length).getD 0 + (batchTokens batch p.1).length ≤ maxSeqLen
  | .dropSeq _ => True

/-- No token of the history was stored at a position from `maxSeqLen` on. -/
def InBounds (maxSeqLen : Nat) (calls : List Call) : Prop :=
  Along Call.store (Call.Within maxSeqLen) (fun _ => none) calls

theorem inBounds_append {maxSeqLen : Nat} {calls : List Call} {c : Call} :
    InBounds maxSeqLen (calls ++ [c]) ↔
      InBounds maxSeqLen calls ∧ c.Within maxSeqLen (kvAfter calls) := by
  unfold InBounds
  rw [along_append]
  simp only [Along, and_true, kvAfter]

namespace Scheduler

variable {μ Λ σ : Type} {M : BatchModel μ Λ} {s t : Scheduler (μ × List Call) σ}
  {pre post : List (Sequence σ)} {q : Sequence σ} {maxSeqLen : Nat}

theorem calls_of_core (e : t.core = s.core) : t.calls = s.calls := by
  unfold calls
  rw [(core_eq_iff.mp e).1]

theorem inBounds_removed (h : InBounds maxSeqLen s.calls) {idx : Nat}
    (e : t.core = (removeRunning M.recorded s idx q).core) : InBounds maxSeqLen t.calls := by
  rw [calls_of_core e]
  exact inBounds_append.mpr ⟨h, trivial⟩

theorem inBounds_pushToken (h : InBounds maxSeqLen s.calls) (hr : s.running = pre ++ q :: post)
    (token : Token) : InBounds maxSeqLen (pushToken M.recorded s pre.length token).calls := by
  rcases pushToken_core M.recorded hr token with e | ⟨_, _, e⟩
  · exact inBounds_removed h e
  · rw [calls_of_core e]
    exact h

theorem inBounds_makeRoom (h : InBounds maxSeqLen s.calls) :
    InBounds maxSeqLen (makeRoom M.recorded s).calls := by
  refine makeRoom_rule (P := fun t => InBounds maxSeqLen t.calls) (fun _ _ _ _ h => h) ?_ h
  intro t id h
  rcases preempt_cases M.recorded t id with ⟨e, _⟩ | ⟨_, _, _, _, _, e⟩
  · rw [e]
    exact h
  · rw [e]
    exact inBounds_append.mpr ⟨h, trivial⟩

theorem inBounds_admitWaiting (h : InBounds maxSeqLen s.calls) :
    InBounds maxSeqLen (admitWaiting s).calls := by
  refine admitWaiting_rule (P := fun t => InBounds maxSeqLen t.calls) ?_ h
  intro s t h ha
  obtain ⟨_, _, _, _, _, rfl⟩ := admitOne_some ha
  exact h

/-- Every prompt leaves room for a token. -/
def Short (M : BatchModel μ Λ) (s : Scheduler (μ × List Call) σ) : Prop :=
  ∀ q ∈ s.waiting ++ s.running, q.promptLen < M.maxSeqLen

theorem Short.onward (h : Short M s) (hon : Onward M.recorded s t) : Short M t := by
  intro q hq
  obtain ⟨r, hr, he⟩ := hon.prompts q hq
  rw [he]
  exact h r hr

variable (sample : σ → Λ → List Token → Token × σ)

theorem inBounds_prefillOneChunk (hs : Shape M.recorded s) (hshort : Short M s)
    (h : InBounds M.maxSeqLen s.calls) :
    InBounds M.maxSeqLen (prefillOneChunk M.recorded sample s).calls := by
  rcases prefillOneChunk_cases M.recorded sample s with
    ⟨_, e⟩ | ⟨pre, q, post, d, hr, hp, _, hcases⟩
  · rw [e]
    exact h
  · have hd := (hs.seq_wf_running (mem_mid hr)).done_lt d hp
    have hlen := hshort q (List.mem_append_right _ (mem_mid hr))
    have hchunk := chunkLen_le s q d
    have hcalled : InBounds M.maxSeqLen (prefillCalled M.recorded s q d).calls := by
      refine inBounds_append.mpr ⟨h, ?_⟩
      show d + ((q.tokens.drop d).take (chunkLen s q d)).length ≤ M.maxSeqLen
      have := List.length_take_le (chunkLen s q d) (q.tokens.drop d)
      omega
    have hrc : (prefillCalled M.recorded s q d).running = pre ++ q :: post := hr
    rcases hcases with ⟨_, logits, _, e⟩ | ⟨_, _, e⟩ | ⟨_, e⟩
    · rw [e]
      exact inBounds_pushToken (s := { prefillCalled M.recorded s q d with
        running := pre ++ { q with
          phase := .decode, sampler := (sample q.sampler logits q.tokens).2 } :: post })
        hcalled rfl _
    · rw [e]
      exact hcalled
    · rw [e]
      exact inBounds_removed hcalled (finish_core M.recorded hrc .error)

/-- A sequence that decodes is shorter than the context. -/
theorem SeqWf.tokens_length_le {n : Nat} (h : SeqWf n q) (hlen : q.promptLen < n) :
    q.tokens.length ≤ n := by
  have hg := h.generated_le
  unfold Sequence.budget at hg
  rw [h.tokens_eq, List.length_append, ← h.promptLen_eq]
  omega

theorem inBounds_decodeBatched (hinv : Inv Shorter M s) (hshort : Short M s)
    (h : InBounds M.maxSeqLen s.calls) :
    InBounds M.maxSeqLen
      (decodeBatched M.recorded sample s (decodeBatch 0 s.running)).calls := by
  refine decodeBatched_mid_rule (P := fun _ t => InBounds M.maxSeqLen t.calls) sample ?_ ?_ ?_
  · intro pre q post t _ hr hb
    exact inBounds_removed hb (finish_core M.recorded hr .error)
  · intro pre q post t _ logits hr hb
    rw [sampleAt_mid M.recorded sample hr]
    have hmoved : InBounds M.maxSeqLen ({ t with running := pre ++ { q with
        sampler := (sample q.sampler logits q.tokens).2 } :: post }.calls) := hb
    exact inBounds_pushToken hmoved rfl _
  · -- the decode call: one token for each sequence, behind its KV
    refine inBounds_append.mpr ⟨h, ?_⟩
    intro p hp
    rw [modelBatch_decodeBatch] at hp
    obtain ⟨q, hq, rfl⟩ := List.mem_map.mp hp
    obtain ⟨hm, hd⟩ := List.mem_filter.mp hq
    have hd : q.phase = .decode := by simpa using hd
    obtain ⟨l, hl, hshorter, _⟩ := (hinv.tracked q hm).decoding hd
    have hl : kvAfter s.model.2 q.id = some ⟨l, true⟩ := hl
    have hle := (hinv.seq_wf_running hm).tokens_length_le
      (hshort q (List.mem_append_right _ hm))
    have hlt : l.length < q.tokens.length := hshorter
    have hle : q.tokens.length ≤ M.maxSeqLen := hle
    dsimp only
    rw [hl, batchTokens_of_decode hinv.running_nodup hm hd 0]
    show l.length + 1 ≤ M.maxSeqLen
    omega

theorem inBounds_decodeStep (hinv : Inv Shorter M s) (hshort : Short M s)
    (h : InBounds M.maxSeqLen s.calls) :
    InBounds M.maxSeqLen (decodeStep M.recorded sample s).calls := by
  have hroom := inBounds_makeRoom (M := M) h
  exact decodeStep_rule (P := fun t => InBounds M.maxSeqLen t.calls) sample h hroom
    (inBounds_decodeBatched sample hinv.makeRoom (hshort.onward (makeRoom_onward s).1) hroom)

theorem inBounds_step (hinv : Inv Shorter M s) (hshort : Short M s)
    (h : InBounds M.maxSeqLen s.calls) :
    Short M (step M.recorded sample s) ∧
      InBounds M.maxSeqLen (step M.recorded sample s).calls := by
  have hinv1 := hinv.admitWaiting
  have hinv2 := hinv1.prefillOneChunk sample (shorter_starts _)
  have hshort1 := hshort.onward (admitWaiting_onward hinv.toShape).1
  have hshort2 := hshort1.onward (prefillOneChunk_onward sample hinv1.toShape).1
  exact ⟨hshort2.onward (decodeStep_onward sample hinv2).1,
    inBounds_decodeStep sample hinv2 hshort2
      (inBounds_prefillOneChunk sample hinv1.toShape hshort1 (inBounds_admitWaiting h))⟩

theorem inBounds_enqueue (hshort : Short M s) (h : InBounds M.maxSeqLen s.calls)
    (req : Request σ) : Short M (enqueue M.recorded s req) ∧
      InBounds M.maxSeqLen (enqueue M.recorded s req).calls := by
  unfold enqueue
  dsimp only
  split
  · generalize hsent : (({ s with nextId := s.nextId + 1 } :
      Scheduler (μ × List Call) σ).send s.nextId req.tx _).2 = t
    have e : t.core = { s with nextId := s.nextId + 1 }.core := by rw [← hsent, send_core]
    obtain ⟨_, _, _, hw, hr, _⟩ := core_eq_iff.mp e
    refine ⟨?_, ?_⟩
    · unfold Short
      rw [hw, hr]
      exact hshort
    · rw [calls_of_core e]
      exact h
  · next hacc =>
    simp only [Bool.or_eq_true, decide_eq_true_eq, not_or, Nat.not_le] at hacc
    refine ⟨?_, h⟩
    intro q hq
    simp only [List.mem_append, List.mem_singleton] at hq
    rcases hq with (hq | rfl) | hq
    · exact hshort q (List.mem_append_left _ hq)
    · exact hacc.2
    · exact hshort q (List.mem_append_right _ hq)

/-- In no run is a token stored at a position from `max_seq_len` on. -/
theorem run_inBounds (model : μ) (cfg : SchedulerConfig) (acts : List (Action σ)) :
    InBounds M.maxSeqLen (run M.recorded sample (model, []) cfg acts).calls := by
  suffices h : Short M (run M.recorded sample (model, []) cfg acts) ∧
      InBounds M.maxSeqLen (run M.recorded sample (model, []) cfg acts).calls from h.2
  induction acts using List.reverseRecOn with
  | nil => exact ⟨fun q hq => absurd hq List.not_mem_nil, trivial⟩
  | append_singleton acts a ih =>
    rw [run_concat]
    cases a with
    | enqueue req => exact inBounds_enqueue ih.1 ih.2 req
    | step => exact inBounds_step sample (run_inv sample model cfg acts) ih.1 ih.2

variable (M) (model : μ) (cfg : SchedulerConfig) (acts : List (Action σ))

/-- A request whose prompt is shorter than the context generates no more than its budget iff
    `max_tokens` is not 0, or as long as it has generated nothing. Positions are in bounds in
    any case. -/
theorem run_within_budget_iff {k : Nat} {req : Request σ}
    (hreq : (submitted acts)[k]? = some req) (hlen : req.promptTokens.length < M.maxSeqLen) :
    (∃ inputs, streams M sample model cfg acts (k + 1) =
        some (Stream.run M.maxSeqLen req inputs) ∧
      ∀ past, past <+: inputs →
        ((Stream.run M.maxSeqLen req past).generated.length ≤
            min req.maxTokens (M.maxSeqLen - req.promptTokens.length) ↔
          req.maxTokens ≠ 0 ∨ (Stream.run M.maxSeqLen req past).generated = [])) ∧
    InBounds M.maxSeqLen (run M.recorded sample (model, []) cfg acts).calls := by
  obtain ⟨inputs, hst, _⟩ := exists_stream M sample model cfg acts hreq
  exact ⟨⟨inputs, hst, fun past _ => Stream.generated_le_iff hlen past⟩,
    run_inBounds sample model cfg acts⟩

theorem run_within_budget_iff_plain :
    (submitted [Action.enqueue (Request.plain 2 1), .step])[0]? = some (Request.plain 2 1) ∧
    (Request.plain 2 1).promptTokens.length < (BatchModel.silent 4).maxSeqLen ∧
    (∃ inputs, streams (BatchModel.silent 4) (fun _ _ _ => (7, ())) () {}
        [Action.enqueue (Request.plain 2 1), .step] 1 =
          some (Stream.run 4 (Request.plain 2 1) inputs) ∧
      ∀ past, past <+: inputs →
        ((Stream.run 4 (Request.plain 2 1) past).generated.length ≤ min 1 (4 - 2) ↔
          1 ≠ 0 ∨ (Stream.run 4 (Request.plain 2 1) past).generated = [])) ∧
    InBounds 4 (run (BatchModel.silent 4).recorded (fun _ _ _ => (7, ())) ((), []) {}
      [Action.enqueue (Request.plain 2 1), .step]).calls :=
  ⟨rfl, by decide, run_within_budget_iff (BatchModel.silent 4) (fun _ _ _ => (7, ())) () {}
    [.enqueue (Request.plain 2 1), .step] rfl (by decide)⟩

/-- A request with `max_tokens` 0 generates a token and reports it. -/
theorem zero_max_tokens_generates_one :
    (streams (BatchModel.silent 8) (fun _ _ _ => (7, ())) () {}
        [Action.enqueue (Request.plain 1 0), .step] 1).map
      (fun st => (st.generated, st.ended)) = some ([7], some .length) ∧
    ((run (BatchModel.silent 8) (fun _ _ _ => (7, ())) () {}
        [Action.enqueue (Request.plain 1 0), .step]).channel 1).map
      (fun ev => (ev.delta, ev.completionTokens)) = [(['a'], 1), ([], 1)] := by
  decide +kernel

end Scheduler

end Cognitora.Infer
