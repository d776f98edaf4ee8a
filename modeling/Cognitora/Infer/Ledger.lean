/-
  The scheduler against the history of its runtime.

  The runtime is any `M`, run behind the recorder `M.recorded`. `Ledger` adds to `Shape`
  that the history obeys the contract and that the runtime holds KV for running ids only.
  `Tracked D s q` says what the history means for one running sequence: while it is
  prefilled, the KV is the part of `tokens` that `done` counts; while it decodes, the KV
  stands in the relation `D` to `tokens` and fits the blocks held.

  `D` is a parameter. `step_inv` keeps `Inv D` for every `D` that one decode call and one
  sampled token keep (`Grows`), if `D` holds when the last prefill chunk of the step is
  done (`Starts`). How much of `tokens` a decoding sequence has in the runtime is for the
  users of this file to say.
-/
import Cognitora.Infer.Shape

namespace Cognitora.Infer.Scheduler

open Cognitora.Lib

variable {μ Λ σ : Type}

/-- The calls made so far. -/
def calls (s : Scheduler (μ × List Call) σ) : List Call :=
  s.model.2

/-- The KV the runtime holds per id. -/
def kv (s : Scheduler (μ × List Call) σ) : Nat → Option Held :=
  kvAfter s.calls

/-- The relation `D` once a token, whichever it is, has been appended to the sequence. -/
def Awaiting (D : List Token → List Token → Prop) (l ts : List Token) : Prop :=
  ∀ x, D l (ts ++ [x])

/-- Feeding the last token of a sequence prepares it for one more. -/
structure Grows (D : List Token → List Token → Prop) : Prop where
  bounded : ∀ l ts, D l ts → l.length < ts.length
  fed : ∀ l ts t, D l ts → ts.getLast? = some t → Awaiting D (l ++ [t]) ts

/-- What the history means for a running sequence. -/
structure Tracked (D : List Token → List Token → Prop) (s : Scheduler (μ × List Call) σ)
    (q : Sequence σ) : Prop where
  covered : KvPool.blocksFor (q.promptLen + 1) ≤ s.pool.heldBy q.id
  prefilling : ∀ d, q.phase = .prefill d →
    s.kv q.id = if d = 0 then none else some ⟨q.tokens.take d, false⟩
  decoding : q.phase = .decode →
    ∃ l, s.kv q.id = some ⟨l, true⟩ ∧ D l q.tokens ∧ l.length ≤ blockTokens * s.pool.heldBy q.id

/-- A shape whose history obeys the contract, with KV for running ids only. -/
structure Ledger (M : BatchModel μ Λ) (s : Scheduler (μ × List Call) σ) : Prop
    extends Shape M.recorded s where
  kv_running : ∀ id, s.kv id ≠ none → id ∈ s.running.map Sequence.id
  obeyed : Obeyed M.maxBatch s.calls

/-- The invariant between two actions. -/
structure Inv (D : List Token → List Token → Prop) (M : BatchModel μ Λ)
    (s : Scheduler (μ × List Call) σ) : Prop extends Ledger M s where
  tracked : ∀ q ∈ s.running, Tracked D s q

variable {D E : List Token → List Token → Prop} {M : BatchModel μ Λ}
  {s t : Scheduler (μ × List Call) σ} {pre post : List (Sequence σ)} {q r : Sequence σ}

/-! ## Tracked sequences -/

/-- Only the history and the blocks held matter, and more blocks do no harm. -/
theorem Tracked.mono (h : Tracked D s q) (hkv : t.kv q.id = s.kv q.id)
    (hpool : s.pool.heldBy q.id ≤ t.pool.heldBy q.id) : Tracked D t q := by
  refine ⟨Nat.le_trans h.covered hpool, ?_, ?_⟩
  · intro d hd
    rw [hkv]
    exact h.prefilling d hd
  · intro hp
    obtain ⟨l, hl, hD, hlen⟩ := h.decoding hp
    refine ⟨l, ?_, hD, Nat.le_trans hlen (Nat.mul_le_mul_left _ hpool)⟩
    rw [hkv, hl]

theorem Tracked.of_core (h : Tracked D s q) (e : t.core = s.core) : Tracked D t q := by
  obtain ⟨e1, _, e3, _⟩ := core_eq_iff.mp e
  refine h.mono ?_ ?_
  · unfold kv calls
    rw [e1]
  · rw [e3]

/-- A prefilling sequence does not depend on the relation. -/
theorem Tracked.of_prefill (h : Tracked D s q) (hp : q.phase ≠ .decode) : Tracked E s q :=
  ⟨h.covered, h.prefilling, fun hd => absurd hd hp⟩

/-! ## Taking a sequence out -/

theorem kv_removeRunning (idx : Nat) :
    (removeRunning M.recorded s idx q).kv = Function.update s.kv q.id none :=
  kvAfter_append s.calls (.dropSeq q.id)

theorem Ledger.of_core (h : Ledger M s) (e : t.core = s.core) : Ledger M t := by
  obtain ⟨e1, _, _, _, e5, _⟩ := core_eq_iff.mp e
  have hc : t.calls = s.calls := by unfold calls; rw [e1]
  refine ⟨h.toShape.of_core e, ?_, ?_⟩
  · unfold kv
    rw [hc, e5]
    exact h.kv_running
  · rw [hc]
    exact h.obeyed

theorem Ledger.remove (h : Ledger M s) (hr : s.running = pre ++ q :: post) :
    Ledger M (removeRunning M.recorded s pre.length q) := by
  have hshape := h.toShape.remove hr
  refine ⟨hshape, ?_, ?_⟩
  · intro id hid
    rw [kv_removeRunning, Function.update_apply] at hid
    split at hid
    · exact absurd rfl hid
    · next hne =>
      -- both sides are the keys of the pool
      refine (hshape.held_iff id).mp ((KvPool.mem_held_release _ _ _).mpr ⟨hne, ?_⟩)
      exact (h.held_iff id).mpr (h.kv_running id hid)
  · exact obeyed_append.mpr ⟨h.obeyed, trivial⟩

theorem Tracked.remove (h : Tracked D s r) (hne : r.id ≠ q.id) (idx : Nat) :
    Tracked D (removeRunning M.recorded s idx q) r := by
  refine h.mono ?_ ?_
  · rw [kv_removeRunning, Function.update_of_ne hne]
  · exact Nat.le_of_eq (KvPool.heldBy_release_ne _ hne).symm

/-- After `t` was reached from `s` by taking `q` out, the others are as before. -/
theorem removed (h : Ledger M s) (hr : s.running = pre ++ q :: post)
    (e : t.core = (removeRunning M.recorded s pre.length q).core) :
    Ledger M t ∧ t.running = pre ++ post ∧
      ∀ E, ∀ r ∈ pre ++ post, Tracked E s r → Tracked E t r := by
  refine ⟨(h.remove hr).of_core e, ?_, ?_⟩
  · rw [running_of_core e, removeRunning_mid M.recorded hr]
  · intro E r hm ht
    exact (ht.remove (h.id_ne_of_mid hr hm) pre.length).of_core e

/-! ## Replacing a sequence -/

theorem Ledger.replace (h : Ledger M s) (hr : s.running = pre ++ q :: post) (hid : r.id = q.id)
    (hw : SeqWf M.maxSeqLen r) : Ledger M { s with running := pre ++ r :: post } := by
  refine ⟨h.toShape.replace hr hid hw, ?_, h.obeyed⟩
  intro id hk
  have := h.kv_running id hk
  rw [hr] at this
  simpa only [List.map_append, List.map_cons, hid] using this

/-- `push_token` on a sequence that awaits a token: it is taken out, or it is tracked
    again; the others are as before. -/
theorem pushToken_tracked (h : Ledger M s) (hr : s.running = pre ++ q :: post)
    (hp : q.phase = .decode) (hq : Tracked (Awaiting D) s q) (token : Token) :
    Ledger M (pushToken M.recorded s pre.length token) ∧
    (∃ mid, (pushToken M.recorded s pre.length token).running = pre ++ (mid ++ post) ∧
      ∀ r ∈ mid, Tracked D (pushToken M.recorded s pre.length token) r) ∧
    ∀ E, ∀ r ∈ pre ++ post, Tracked E s r →
      Tracked E (pushToken M.recorded s pre.length token) r := by
  rcases pushToken_core M.recorded hr token with e | ⟨hb, e', e⟩
  · obtain ⟨hl, hrun, hrest⟩ := removed h hr e
    refine ⟨hl, ⟨[], hrun, ?_⟩, hrest⟩
    exact fun r hm => absurd hm List.not_mem_nil
  · have hw := (h.seq_wf_running (mem_mid hr)).grown token e' hb
    have hl := h.replace hr (r := { grown q token with emittedLen := e' }) rfl hw
    refine ⟨hl.of_core e, ⟨[{ grown q token with emittedLen := e' }], running_of_core e, ?_⟩, ?_⟩
    · intro r hm
      rw [List.mem_singleton.mp hm]
      refine Tracked.of_core ?_ e
      obtain ⟨l, hkv, hD, hlen⟩ := hq.decoding hp
      refine ⟨hq.covered, ?_, fun _ => ⟨l, hkv, hD token, hlen⟩⟩
      intro d hd
      have hd : q.phase = .prefill d := hd
      rw [hp] at hd
      exact absurd hd (by simp)
    · intro E r _ ht
      exact Tracked.of_core (ht.mono (t := { s with
        running := pre ++ { grown q token with emittedLen := e' } :: post }) rfl le_rfl) e

/-! ## Preemption and reservations -/

theorem Inv.preempt (h : Inv D M s) (id : Nat) : Inv D M (preempt M.recorded s id) := by
  have hshape := h.toShape.preempt id
  rcases preempt_cases M.recorded s id with ⟨e, _⟩ | ⟨pre, q, post, hr, rfl, e⟩
  · rw [e]; exact h
  · rw [e] at hshape ⊢
    have hrem := h.toLedger.remove hr
    have hmid := removeRunning_mid M.recorded hr
    rw [hmid] at hrem
    refine ⟨⟨hshape, hrem.kv_running, hrem.obeyed⟩, ?_⟩
    intro r hm
    have hold : r ∈ s.running := by
      rw [hr]
      exact ((List.sublist_cons_self q post).append_left pre).subset hm
    have ht := (h.tracked r hold).remove (M := M) (h.id_ne_of_mid hr hm) pre.length
    rw [hmid] at ht
    exact ht.mono rfl le_rfl

theorem Inv.reserve (h : Inv D M s) {id need : Nat} (hid : id ∈ s.running.map Sequence.id) :
    Inv D M { s with pool := (s.pool.reserve id (need + 1)).2 } := by
  refine ⟨⟨h.toShape.reserve hid, h.kv_running, h.obeyed⟩, ?_⟩
  intro r hm
  exact (h.tracked r hm).mono rfl (KvPool.heldBy_le_reserve h.pool_wf _ _ _)

theorem Inv.makeRoom (h : Inv D M s) : Inv D M (makeRoom M.recorded s) :=
  makeRoom_rule (P := Inv D M) (fun _ _ _ hid h => h.reserve hid) (fun _ id h => h.preempt id) h

/-! ## Submission and admission -/

theorem Inv.new (model : μ) (cfg : SchedulerConfig) :
    Inv D M (Scheduler.new M.recorded (model, []) cfg : Scheduler (μ × List Call) σ) :=
  ⟨⟨Shape.new _ _, fun _ h => absurd rfl h, trivial⟩, fun _ hq => absurd hq List.not_mem_nil⟩

theorem Inv.enqueue (h : Inv D M s) (req : Request σ) : Inv D M (enqueue M.recorded s req) := by
  obtain ⟨e1, e2, e3⟩ := enqueue_frame M.recorded s req
  have hc : (Scheduler.enqueue M.recorded s req).calls = s.calls := by unfold calls; rw [e1]
  have hk : (Scheduler.enqueue M.recorded s req).kv = s.kv := by unfold kv; rw [hc]
  refine ⟨⟨h.toShape.enqueue req, ?_, ?_⟩, ?_⟩
  · rw [hk, e3]
    exact h.kv_running
  · rw [hc]
    exact h.obeyed
  · rw [e3]
    intro q hq
    refine (h.tracked q hq).mono ?_ ?_
    · rw [hk]
    · rw [e2]

/-- No waiting sequence has KV in the runtime. -/
theorem Ledger.kv_waiting (h : Ledger M s) (hq : q ∈ s.waiting) : s.kv q.id = none := by
  by_contra hk
  have hn := h.ids_nodup
  rw [List.map_append, List.nodup_append] at hn
  exact hn.2.2 _ (List.mem_map_of_mem hq) _ (h.kv_running _ hk) rfl

theorem Inv.admitOne (h : Inv D M s) (ha : admitOne s = some t) : Inv D M t := by
  have hshape := h.toShape.admitOne ha
  obtain ⟨q, rest, hw, _, hb, rfl⟩ := admitOne_some ha
  have hq : q ∈ s.waiting := hw ▸ List.mem_cons_self
  refine ⟨⟨hshape, ?_, h.obeyed⟩, ?_⟩
  · intro id hid
    rw [List.map_append]
    exact List.mem_append_left _ (h.kv_running id hid)
  · intro r hm
    rcases List.mem_append.mp hm with hm | hm
    · exact (h.tracked r hm).mono rfl (KvPool.heldBy_le_reserve h.pool_wf _ _ _)
    · rw [List.mem_singleton.mp hm]
      have hphase := h.queued q hq
      refine ⟨KvPool.reserve_covers h.pool_wf hb, ?_, ?_⟩
      · intro d hd
        have hd : q.phase = .prefill d := hd
        rw [hphase] at hd
        cases hd
        have hk := h.toLedger.kv_waiting hq
        rw [if_pos rfl]
        exact hk
      · intro hd
        have hd : q.phase = .decode := hd
        rw [hphase] at hd
        exact absurd hd (by simp)

theorem Inv.admitWaiting (h : Inv D M s) : Inv D M (admitWaiting s) :=
  admitWaiting_rule (P := Inv D M) (fun _ _ h ha => h.admitOne ha) h

/-! ## Chunked prefill -/

/-- `D` will hold when the last chunk of the next `prefill_one_chunk`, if it is a last
    chunk, has been followed by a token. -/
def Starts (D : List Token → List Token → Prop) (s : Scheduler (μ × List Call) σ) : Prop :=
  ∀ idx q done, prefillTarget s.running = some (idx, q, done) →
    chunkLen s q done = q.promptLen - done → Awaiting D (q.tokens.take q.promptLen) q.tokens

/-- A chunk that continues where the KV of `q` ends is allowed, and extends it. -/
theorem Ledger.prefill (h : Ledger M s) (hq : q ∈ s.running) (ht : Tracked D s q) {d : Nat}
    (hp : q.phase = .prefill d) (n : Nat) (w : Bool) :
    Ledger M { s with
      model := (M.recorded.prefill s.model q.id ((q.tokens.drop d).take n) d w).2 } ∧
    kv { s with model := (M.recorded.prefill s.model q.id ((q.tokens.drop d).take n) d w).2 } =
      Function.update s.kv q.id (some ⟨q.tokens.take (d + n), w⟩) := by
  have hwf := h.seq_wf_running hq
  have hd := hwf.done_lt d hp
  have hlen := hwf.promptLen_le
  have hkv := ht.prefilling d hp
  have hkv' : kv { s with
      model := (M.recorded.prefill s.model q.id ((q.tokens.drop d).take n) d w).2 } =
      Function.update s.kv q.id (some ⟨q.tokens.take (d + n), w⟩) := by
    refine (kvAfter_append s.calls (.prefill q.id ((q.tokens.drop d).take n) d w)).trans ?_
    show Function.update s.kv q.id _ = _
    congr 3
    rw [show kvAfter s.calls q.id = s.kv q.id from rfl, hkv, List.take_add]
    by_cases h0 : d = 0
    · simp [h0]
    · simp [h0]
  refine ⟨⟨h.toShape.setModel _, ?_, ?_⟩, hkv'⟩
  · intro id hid
    rw [hkv', Function.update_apply] at hid
    split at hid
    · next he =>
      rw [he]
      exact List.mem_map_of_mem hq
    · exact h.kv_running id hid
  · refine obeyed_append.mpr ⟨h.obeyed, ?_⟩
    show d = 0 ∨ (s.kv q.id).map (fun h => h.tokens.length) = some d
    by_cases h0 : d = 0
    · exact Or.inl h0
    · right
      rw [hkv, if_neg h0, Option.map_some, List.length_take]
      congr 1
      omega

theorem mem_split {mid : List (Sequence σ)} (hm : r ∈ pre ++ (mid ++ post)) :
    r ∈ mid ∨ r ∈ pre ++ post := by
  simp only [List.mem_append] at hm ⊢
  tauto

theorem Inv.of_parts (mid : List (Sequence σ)) (h : Ledger M s)
    (hr : s.running = pre ++ (mid ++ post)) (hmid : ∀ r ∈ mid, Tracked D s r)
    (hrest : ∀ r ∈ pre ++ post, Tracked D s r) : Inv D M s := by
  refine ⟨h, ?_⟩
  rw [hr]
  intro r hm
  rcases mem_split hm with hm | hm
  · exact hmid r hm
  · exact hrest r hm

/-- The state right after a prefill call for `q`: the runtime holds the first `k` tokens of
    it, and the other running sequences are as before. -/
structure Prefilled (D : List Token → List Token → Prop) (M : BatchModel μ Λ)
    (s : Scheduler (μ × List Call) σ) (pre : List (Sequence σ)) (q : Sequence σ)
    (post : List (Sequence σ)) (k : Nat) (w : Bool) : Prop extends Ledger M s where
  running_eq : s.running = pre ++ q :: post
  rest : ∀ r ∈ pre ++ post, Tracked D s r
  covered : KvPool.blocksFor (q.promptLen + 1) ≤ s.pool.heldBy q.id
  kv_eq : s.kv q.id = some ⟨q.tokens.take k, w⟩

theorem Inv.prefill (h : Inv D M s) (hr : s.running = pre ++ q :: post) {d : Nat}
    (hp : q.phase = .prefill d) (n : Nat) (w : Bool) :
    Prefilled D M { s with
      model := (M.recorded.prefill s.model q.id ((q.tokens.drop d).take n) d w).2 }
      pre q post (d + n) w := by
  have hq := mem_mid hr
  obtain ⟨hl, hkv⟩ := h.toLedger.prefill hq (h.tracked q hq) hp n w
  refine ⟨hl, hr, ?_, (h.tracked q hq).covered, ?_⟩
  · intro r hm
    have hold : r ∈ s.running := by
      rw [hr]
      exact ((List.sublist_cons_self q post).append_left pre).subset hm
    refine (h.tracked r hold).mono ?_ le_rfl
    rw [hkv, Function.update_of_ne (h.id_ne_of_mid hr hm)]
  · rw [hkv, Function.update_self]

/-- The call failed. -/
theorem Prefilled.failed {k : Nat} {w : Bool} (h : Prefilled D M s pre q post k w) :
    Inv D M (finish M.recorded s pre.length .error) := by
  obtain ⟨hl, hrun, hothers⟩ := removed h.toLedger h.running_eq
    (finish_core M.recorded h.running_eq .error)
  refine ⟨hl, ?_⟩
  rw [hrun]
  intro r hm
  exact hothers D r hm (h.rest r hm)

/-- Chunks are left. -/
theorem Prefilled.more {k : Nat} (h : Prefilled D M s pre q post k false) (hpos : 0 < k)
    (hlt : k < q.promptLen) :
    Inv D M { s with running := pre ++ { q with phase := .prefill k } :: post } := by
  have hw : SeqWf M.maxSeqLen { q with phase := .prefill k } := by
    refine (h.seq_wf_running (mem_mid h.running_eq)).congr rfl rfl rfl rfl ?_
    intro d hd
    cases hd
    exact hlt
  refine Inv.of_parts [{ q with phase := .prefill k }]
    (h.toLedger.replace h.running_eq rfl hw) rfl ?_ ?_
  · intro r hm
    rw [List.mem_singleton.mp hm]
    refine ⟨h.covered, ?_, ?_⟩
    · intro d hd
      cases hd
      rw [if_neg (by omega)]
      exact h.kv_eq
    · intro hd
      exact absurd hd (by simp)
  · intro r hm
    exact (h.rest r hm).mono rfl le_rfl

/-- The prompt is complete: the sequence decodes, and a first token is pushed. -/
theorem Prefilled.last (h : Prefilled D M s pre q post q.promptLen true)
    (hD : Awaiting D (q.tokens.take q.promptLen) q.tokens) (sampler : σ) (token : Token) :
    Inv D M (pushToken M.recorded { s with
      running := pre ++ { q with phase := .decode, sampler := sampler } :: post }
      pre.length token) := by
  have hw : SeqWf M.maxSeqLen { q with phase := .decode, sampler := sampler } := by
    refine (h.seq_wf_running (mem_mid h.running_eq)).congr rfl rfl rfl rfl ?_
    intro d hd
    exact absurd hd (by simp)
  have hl := h.toLedger.replace h.running_eq
    (r := { q with phase := .decode, sampler := sampler }) rfl hw
  -- the prompt fits the blocks reserved at admission
  have hfits : (q.tokens.take q.promptLen).length ≤ blockTokens * s.pool.heldBy q.id := by
    have h1 := KvPool.le_blockTokens_mul_blocksFor (q.promptLen + 1)
    have h2 := Nat.mul_le_mul_left blockTokens h.covered
    rw [List.length_take]
    omega
  obtain ⟨hl', ⟨mid, hrun, hmid⟩, hothers⟩ := pushToken_tracked hl rfl rfl
    (D := D) ⟨h.covered, fun d hd => absurd hd (by simp), fun _ => ⟨_, h.kv_eq, hD, hfits⟩⟩ token
  refine Inv.of_parts mid hl' hrun hmid ?_
  intro r hm
  exact hothers D r hm ((h.rest r hm).mono rfl le_rfl)

variable (sample : σ → Λ → List Token → Token × σ)

theorem Inv.prefillOneChunk (h : Inv D M s) (hstart : Starts D s) :
    Inv D M (prefillOneChunk M.recorded sample s) := by
  rcases prefillOneChunk_cases M.recorded sample s with
    ⟨_, e⟩ | ⟨pre, q, post, d, hr, hp, htarget, hcases⟩
  · rw [e]; exact h
  · obtain ⟨hpos, hd⟩ := h.chunkLen_pos (mem_mid hr) hp
    have hpre : Prefilled D M (prefillCalled M.recorded s q d) pre q post (d + chunkLen s q d)
        (decide (chunkLen s q d = q.promptLen - d)) := h.prefill hr hp _ _
    rcases hcases with ⟨hlast, logits, _, e⟩ | ⟨hlt, _, e⟩ | ⟨_, e⟩
    · have hk : d + chunkLen s q d = q.promptLen := by omega
      rw [hk, decide_eq_true hlast] at hpre
      rw [e]
      exact hpre.last (hstart _ q d htarget hlast) _ _
    · rw [decide_eq_false (by omega)] at hpre
      rw [e]
      exact hpre.more (by omega) (by omega)
    · rw [e]
      exact hpre.failed

/-! ## Batched decode -/

/-- A sequence that does not decode is fed nothing. -/
theorem batchTokens_of_not_decode {running : List (Sequence σ)} {id : Nat}
    (h : ∀ q ∈ running, q.phase = .decode → q.id ≠ id) (i : Nat) :
    batchTokens (modelBatch (decodeBatch i running)) id = [] := by
  refine batchTokens_eq_nil ?_
  rw [modelBatch_decodeBatch, List.map_map]
  intro hid
  obtain ⟨q, hq, he⟩ := List.mem_map.mp hid
  obtain ⟨hm, hd⟩ := List.mem_filter.mp hq
  exact h q hm (by simpa using hd) he

/-- A sequence that decodes is fed its last token, once. -/
theorem batchTokens_of_decode {running : List (Sequence σ)}
    (hn : (running.map Sequence.id).Nodup) (hq : q ∈ running) (hp : q.phase = .decode) (i : Nat) :
    batchTokens (modelBatch (decodeBatch i running)) q.id = [q.tokens.getLast?.getD 0] := by
  rw [modelBatch_decodeBatch]
  refine batchTokens_eq_singleton (p := (q.id, q.tokens.getLast?.getD 0)) ?_ ?_
  · rw [List.map_map]
    exact hn.sublist (List.filter_sublist.map Sequence.id)
  · exact List.mem_map_of_mem (f := fun q : Sequence σ => (q.id, q.tokens.getLast?.getD 0))
      (List.mem_filter.mpr ⟨hq, by simp [hp]⟩)

theorem kv_decode (batch : List (Nat × Token)) (id : Nat) :
    kv { s with model := (M.recorded.decode s.model batch).2 } id =
      (s.kv id).map fun h => { h with tokens := h.tokens ++ batchTokens batch id } :=
  congrFun (kvAfter_append s.calls (.decode batch)) id

/-- The decode call is allowed. -/
theorem Inv.decode_ledger (h : Inv D M s) :
    Ledger M { s with
      model := (M.recorded.decode s.model (modelBatch (decodeBatch 0 s.running))).2 } := by
  refine ⟨h.toShape.setModel _, ?_, obeyed_append.mpr ⟨h.obeyed, ?_⟩⟩
  · intro id hid
    rw [kv_decode] at hid
    refine h.kv_running id ?_
    intro hk
    rw [hk] at hid
    exact hid rfl
  · rw [modelBatch_decodeBatch]
    have hsub : (s.running.filter fun q => q.phase == .decode).Sublist s.running :=
      List.filter_sublist
    refine ⟨?_, ?_, ?_⟩
    · rw [List.map_map]
      exact h.running_nodup.sublist (hsub.map Sequence.id)
    · intro p hp
      obtain ⟨q, hq, rfl⟩ := List.mem_map.mp hp
      obtain ⟨hm, hd⟩ := List.mem_filter.mp hq
      obtain ⟨l, hl, _⟩ := (h.tracked q hm).decoding (by simpa using hd)
      exact ⟨_, hl, rfl⟩
    · rw [List.length_map]
      exact Nat.le_trans hsub.length_le (Nat.le_trans h.running_le h.maxBatch_le)

/-- After the decode call every decoding sequence awaits its token. -/
theorem Inv.decode_tracked (hG : Grows D) (h : Inv D M s)
    (hroom : ∀ q ∈ s.running, q.phase = .decode →
      KvPool.blocksFor (q.tokens.length + 1) ≤ s.pool.heldBy q.id) (hq : q ∈ s.running) :
    Tracked (Awaiting D) { s with
      model := (M.recorded.decode s.model (modelBatch (decodeBatch 0 s.running))).2 } q := by
  refine ⟨(h.tracked q hq).covered, ?_, ?_⟩
  · intro d hd
    have hb : batchTokens (modelBatch (decodeBatch 0 s.running)) q.id = [] := by
      refine batchTokens_of_not_decode ?_ 0
      intro r hr hp he
      have : r = q := List.inj_on_of_nodup_map h.running_nodup hr hq he
      rw [this, hd] at hp
      exact absurd hp (by simp)
    rw [kv_decode, hb]
    simp only [List.append_nil, Option.map_id_fun', id_eq]
    exact (h.tracked q hq).prefilling d hd
  · intro hp
    obtain ⟨l, hl, hD, _⟩ := (h.tracked q hq).decoding hp
    have hlast := (h.seq_wf_running hq).getLast?_tokens
    refine ⟨l ++ [q.tokens.getLast?.getD 0], ?_, hG.fed l q.tokens _ hD hlast, ?_⟩
    · rw [kv_decode, batchTokens_of_decode h.running_nodup hq hp, hl, Option.map_some]
    · have h1 := hG.bounded l q.tokens hD
      have h2 := KvPool.le_blockTokens_mul_blocksFor (q.tokens.length + 1)
      have h3 := Nat.mul_le_mul_left blockTokens (hroom q hq hp)
      rw [List.length_append, List.length_singleton]
      show _ ≤ blockTokens * s.pool.heldBy q.id
      omega

/-- The invariant inside the loops over the batch: the sequences of `pre` await their
    token, those after it have been dealt with. -/
structure Mid (D : List Token → List Token → Prop) (M : BatchModel μ Λ)
    (pre : List (Sequence σ)) (s : Scheduler (μ × List Call) σ) : Prop extends Ledger M s where
  split : ∃ post, s.running = pre ++ post ∧ ∀ q ∈ post, Tracked D s q
  awaiting : ∀ q ∈ pre, Tracked (Awaiting D) s q

theorem Mid.inv (h : Mid D M [] s) : Inv D M s := by
  obtain ⟨post, hr, hpost⟩ := h.split
  refine ⟨h.toLedger, ?_⟩
  rw [hr, List.nil_append]
  exact hpost

theorem Mid.skip (h : Mid D M (pre ++ [q]) s) (hp : q.phase ≠ .decode) : Mid D M pre s := by
  obtain ⟨post, hr, hpost⟩ := h.split
  rw [List.append_assoc, List.singleton_append] at hr
  refine ⟨h.toLedger, ⟨q :: post, hr, ?_⟩, ?_⟩
  · intro r hm
    rcases List.mem_cons.mp hm with rfl | hm
    · exact (h.awaiting r (by simp)).of_prefill hp
    · exact hpost r hm
  · intro r hm
    exact h.awaiting r (List.mem_append_left _ hm)

theorem Mid.finish (h : Mid D M (pre ++ [q]) s) (reason : FinishReason) :
    Mid D M pre (finish M.recorded s pre.length reason) := by
  obtain ⟨post, hr, hpost⟩ := h.split
  rw [List.append_assoc, List.singleton_append] at hr
  obtain ⟨hl, hrun, hothers⟩ := removed h.toLedger hr (finish_core M.recorded hr reason)
  refine ⟨hl, ⟨post, hrun, ?_⟩, ?_⟩
  · intro r hm
    exact hothers D r (List.mem_append_right _ hm) (hpost r hm)
  · intro r hm
    exact hothers _ r (List.mem_append_left _ hm) (h.awaiting r (List.mem_append_left _ hm))

theorem Mid.sampleAt (h : Mid D M (pre ++ [q]) s) (hp : q.phase = .decode) (logits : Λ) :
    Mid D M pre (sampleAt M.recorded sample s pre.length logits) := by
  obtain ⟨post, hr, hpost⟩ := h.split
  rw [List.append_assoc, List.singleton_append] at hr
  have hq : Tracked (Awaiting D) s q := h.awaiting q (by simp)
  rw [sampleAt_mid M.recorded sample hr]
  generalize sample q.sampler logits q.tokens = next
  have hwf := h.seq_wf_running (mem_mid hr)
  have hl := h.toLedger.replace hr (r := { q with sampler := next.2 }) rfl
    (hwf.congr rfl rfl rfl rfl hwf.done_lt)
  obtain ⟨hl', ⟨mid, hrun, hmid⟩, hothers⟩ := pushToken_tracked hl rfl hp
    (D := D) ⟨hq.covered, hq.prefilling, hq.decoding⟩ next.1
  refine ⟨hl', ⟨mid ++ post, hrun, ?_⟩, ?_⟩
  · intro r hm
    rcases List.mem_append.mp hm with hm | hm
    · exact hmid r hm
    · exact hothers D r (List.mem_append_right _ hm) ((hpost r hm).mono rfl le_rfl)
  · intro r hm
    exact hothers _ r (List.mem_append_left _ hm)
      ((h.awaiting r (List.mem_append_left _ hm)).mono rfl le_rfl)

/-- After the decode call, before the first token is sampled. -/
theorem Inv.decode_mid (hG : Grows D) (h : Inv D M s)
    (hroom : ∀ q ∈ s.running, q.phase = .decode →
      KvPool.blocksFor (q.tokens.length + 1) ≤ s.pool.heldBy q.id) :
    Mid D M s.running { s with
      model := (M.recorded.decode s.model (modelBatch (decodeBatch 0 s.running))).2 } :=
  ⟨h.decode_ledger, ⟨[], (List.append_nil _).symm, fun _ hq => absurd hq List.not_mem_nil⟩,
    fun _ hq => h.decode_tracked hG hroom hq⟩

theorem Inv.decodeBatched (hG : Grows D) (h : Inv D M s)
    (hroom : ∀ q ∈ s.running, q.phase = .decode →
      KvPool.blocksFor (q.tokens.length + 1) ≤ s.pool.heldBy q.id) :
    Inv D M (decodeBatched M.recorded sample s (decodeBatch 0 s.running)) := by
  refine Mid.inv (decodeBatched_rule (Q := fun pre _ => Mid D M pre) sample ?_ ?_ ?_
    (h.decode_mid hG hroom))
  · intro _ pre q _ s _ _ _ hm
    exact hm.finish .error
  · intro _ pre q _ s _ logits _ hp hm
    exact hm.sampleAt sample hp logits
  · intro pre q s _ hp hm
    exact hm.skip hp

theorem Inv.decodeStep (hG : Grows D) (h : Inv D M s) :
    Inv D M (decodeStep M.recorded sample s) :=
  decodeStep_rule sample h h.makeRoom
    (h.makeRoom.decodeBatched sample hG fun _ hq hp => makeRoom_room h.toShape hq hp)

/-! ## Whole runs -/

/-- One iteration keeps the invariant if `D` holds for the prompt it completes. -/
theorem Inv.step (hG : Grows D) (h : Inv D M s) (hstart : Starts D (Scheduler.admitWaiting s)) :
    Inv D M (step M.recorded sample s) :=
  (h.admitWaiting.prefillOneChunk sample hstart).decodeStep sample hG

end Cognitora.Infer.Scheduler
