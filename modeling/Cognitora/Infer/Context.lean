/-
  What the runtime has been fed when a sequence goes on.

  `preempt` sets a sequence back to `Prefill { done: 0 }` and leaves `prompt_len` as it is,
  and `prefill_one_chunk` stops at `prompt_len`: what the sequence had generated before is
  never fed again, and it decodes on without it. `contextKept_iff_firstPrefill`: along a
  run, the runtime has the whole text of every sequence that goes on exactly if no step
  completes the prefill of a sequence that already has generated tokens.
-/
import Cognitora.Infer.Resources

namespace Cognitora.Infer.Scheduler

open Cognitora.Lib

variable {μ Λ σ : Type} {M : BatchModel μ Λ} {s : Scheduler (μ × List Call) σ}

/-- The runtime holds everything but the last token. -/
def AllButLast (l ts : List Token) : Prop :=
  ∃ t, ts = l ++ [t]

theorem allButLast_grows : Grows AllButLast where
  bounded := by
    rintro l ts ⟨t, rfl⟩
    rw [List.length_append, List.length_singleton]
    exact Nat.lt_succ_self _
  fed := by
    rintro l ts t ⟨u, rfl⟩ hlast x
    have hu : u = t := by simpa using hlast
    exact ⟨x, by rw [hu]⟩

/-- The runtime has the whole text of the sequences that this step lets go on: of the one
    whose last prefill chunk it processes, and, with the token passed, of those in the
    decode call. -/
def ContextKept (M : BatchModel μ Λ) (sample : σ → Λ → List Token → Token × σ)
    (s : Scheduler (μ × List Call) σ) : Action σ → Prop
  | .enqueue _ => True
  | .step =>
    (∀ idx q done, prefillTarget (admitWaiting s).running = some (idx, q, done) →
      chunkLen (admitWaiting s) q done = q.promptLen - done →
      fedSince (prefillCalled M.recorded (admitWaiting s) q done).calls q.id = q.tokens) ∧
    let r := makeRoom M.recorded (prefillOneChunk M.recorded sample (admitWaiting s))
    ∀ p ∈ modelBatch (decodeBatch 0 r.running), ∀ q ∈ r.running, q.id = p.1 →
      fedSince r.calls q.id ++ [p.2] = q.tokens

/-- The sequence whose last prefill chunk this step processes has not generated yet: it
    was not preempted, or not after its first token. -/
def FirstPrefill (s : Scheduler (μ × List Call) σ) : Action σ → Prop
  | .enqueue _ => True
  | .step =>
    ∀ idx q done, prefillTarget (admitWaiting s).running = some (idx, q, done) →
      chunkLen (admitWaiting s) q done = q.promptLen - done → q.generated = []

/-- After the last chunk the runtime has been fed the prompt, and nothing after it. -/
theorem fedSince_prefillCalled {D : List Token → List Token → Prop} (h : Inv D M s)
    {idx done : Nat} {q : Sequence σ} (ht : prefillTarget s.running = some (idx, q, done))
    (hlast : chunkLen s q done = q.promptLen - done) :
    fedSince (prefillCalled M.recorded s q done).calls q.id = q.tokens.take q.promptLen := by
  obtain ⟨pre, post, hr, _, hp⟩ := prefillTarget_some ht
  have hd := (h.seq_wf_running (mem_mid hr)).done_lt done hp
  have hpre : Prefilled D M (prefillCalled M.recorded s q done) pre q post
      (done + chunkLen s q done) _ := h.prefill hr hp _ _
  have hk : done + chunkLen s q done = q.promptLen := by omega
  rw [hk] at hpre
  exact fedSince_of_kvAfter _ hpre.obeyed q.id _ hpre.kv_eq

/-- A sequence in the decode call has been fed all but the token that the call passes. -/
theorem fedSince_decode (h : Inv AllButLast M s) {p : Nat × Token}
    (hp : p ∈ modelBatch (decodeBatch 0 s.running)) {q : Sequence σ} (hq : q ∈ s.running)
    (hid : q.id = p.1) : fedSince s.calls q.id ++ [p.2] = q.tokens := by
  rw [modelBatch_decodeBatch] at hp
  obtain ⟨r, hr, rfl⟩ := List.mem_map.mp hp
  obtain ⟨hm, hd⟩ := List.mem_filter.mp hr
  have hqr : q = r := List.inj_on_of_nodup_map h.running_nodup hq hm hid
  subst hqr
  obtain ⟨l, hl, ⟨t, ht⟩, _⟩ := (h.tracked q hq).decoding (by simpa using hd)
  rw [fedSince_of_kvAfter _ h.obeyed q.id _ hl, ht]
  simp

theorem firstPrefill_starts (h : Shape M.recorded (admitWaiting s))
    (hf : FirstPrefill s Action.step) : Starts AllButLast (admitWaiting s) := by
  intro idx q done ht hlast x
  obtain ⟨pre, post, hr, _, _⟩ := prefillTarget_some ht
  have hg := hf idx q done ht hlast
  rw [(h.seq_wf_running (mem_mid hr)).take_promptLen.mpr hg]
  exact ⟨x, rfl⟩

variable (sample : σ → Λ → List Token → Token × σ)

theorem contextKept_iff (h : Inv AllButLast M s) (a : Action σ) :
    ContextKept M sample s a ↔ FirstPrefill s a := by
  cases a with
  | enqueue req => exact Iff.rfl
  | step =>
    have hadm := h.admitWaiting
    constructor
    · intro hc idx q done ht hlast
      obtain ⟨pre, post, hr, _, _⟩ := prefillTarget_some ht
      have hfed := hc.1 idx q done ht hlast
      rw [fedSince_prefillCalled hadm ht hlast] at hfed
      exact (hadm.seq_wf_running (mem_mid hr)).take_promptLen.mp hfed
    · intro hf
      refine ⟨?_, ?_⟩
      · intro idx q done ht hlast
        obtain ⟨pre, post, hr, _, _⟩ := prefillTarget_some ht
        rw [fedSince_prefillCalled hadm ht hlast]
        exact (hadm.seq_wf_running (mem_mid hr)).take_promptLen.mpr (hf idx q done ht hlast)
      · have hroom := (hadm.prefillOneChunk sample (firstPrefill_starts hadm.toShape hf)).makeRoom
        intro r p hp q hq hid
        exact fedSince_decode hroom hp hq hid

theorem Inv.act_of_firstPrefill (h : Inv AllButLast M s) (a : Action σ) (hf : FirstPrefill s a) :
    Inv AllButLast M (Scheduler.act M.recorded sample s a) := by
  cases a with
  | enqueue req => exact h.enqueue req
  | step => exact h.step sample allButLast_grows (firstPrefill_starts h.admitWaiting.toShape hf)

/-- Every step of a run finds the whole text of the sequences it lets go on in the runtime
    exactly if no step of it completes a prefill for a sequence with generated tokens. -/
theorem contextKept_iff_firstPrefill (M : BatchModel μ Λ) (model : μ) (cfg : SchedulerConfig)
    (acts : List (Action σ)) :
    Along (Scheduler.act M.recorded sample) (ContextKept M sample)
        (Scheduler.new M.recorded (model, []) cfg) acts ↔
      Along (Scheduler.act M.recorded sample) FirstPrefill
        (Scheduler.new M.recorded (model, []) cfg) acts :=
  along_iff (I := Inv AllButLast M) (fun _ a h => contextKept_iff sample h a)
    (fun _ a h hf => h.act_of_firstPrefill sample a hf) acts _ (Inv.new model cfg)

/-- The first half of `ContextKept`, computed. -/
def prefillFedWhole (M : BatchModel μ Λ) (s : Scheduler (μ × List Call) σ) : Bool :=
  match prefillTarget (admitWaiting s).running with
  | none => true
  | some (_, q, done) =>
    decide (chunkLen (admitWaiting s) q done = q.promptLen - done →
      fedSince (prefillCalled M.recorded (admitWaiting s) q done).calls q.id = q.tokens)

theorem ContextKept.prefillFedWhole (h : ContextKept M sample s .step) :
    prefillFedWhole M s = true := by
  unfold Scheduler.prefillFedWhole
  split
  · rfl
  · next idx q done ht => exact decide_eq_true (h.1 idx q done ht)

/-- A pool of one block. The first step feeds the prompt, samples a token, finds no room for
    the next position and preempts the sequence itself. The second step feeds the prompt
    again and takes that for the whole sequence. -/
theorem preempted_context_lost :
    ¬ ∀ (M : BatchModel Unit Unit) (sample : Unit → Unit → List Token → Token × Unit)
        (cfg : SchedulerConfig) (acts : List (Action Unit)),
      Along (Scheduler.act M.recorded sample) (ContextKept M sample)
        (Scheduler.new M.recorded ((), []) cfg) acts := by
  intro h
  have hrun := h (BatchModel.silent 4096) (fun _ _ _ => (5, ())) { kvPoolTokens := 16 }
    ([.enqueue (.plain 15 100), .step] ++ [.step])
  have hlast := ((along_append _ _ _).mp hrun).2.1
  exact absurd (hlast.prefillFedWhole _) (by decide +kernel)

end Cognitora.Infer.Scheduler
