/-
  A runtime with the outcome of every call, and what it can rely on after a failure.

  `BatchModel.observed` runs any runtime and keeps for each call whether it succeeded and what
  the runtime showed of it. `Tidy.run`: the scheduler drops the sequences of a failed call
  before it makes another prefill or decode call. `run_served` puts this next to the contract
  of `Infer/Runtime`, and `restarted_of_failed` says what follows: a sequence of a failed call
  takes part in another one only after a prefill at position 0.

  A runtime is `Faithful` if calls on sequences that it holds leave them held, and show what is
  right for the tokens fed; of the sequences of a failed call nothing is asked. `trusted`: all
  that such a runtime shows along such a history is right.
-/
import Cognitora.Infer.Resources

namespace Cognitora.Infer

open Cognitora.Lib

variable {μ Λ ρ σ : Type}

/-! ## Outcomes -/

/-- The sequences a call is about. -/
def Call.seqs : Call → List Nat
  | .prefill seq _ _ _ => [seq]
  | .decode batch => batch.map Prod.fst
  | .dropSeq seq => [seq]

/-- The call starts the sequence anew. -/
def Call.Restarts (id : Nat) : Call → Prop
  | .prefill seq _ startPos _ => seq = id ∧ startPos = 0
  | .decode _ => False
  | .dropSeq _ => False

def Call.IsDrop : Call → Prop
  | .dropSeq _ => True
  | _ => False

theorem Call.IsDrop.eq {c : Call} (h : c.IsDrop) : ∃ seq, c = .dropSeq seq := by
  cases c with
  | prefill => exact absurd h not_false
  | decode => exact absurd h not_false
  | dropSeq seq => exact ⟨seq, rfl⟩

/-- Whether the call succeeds, and the runtime after it. -/
def Call.exec (M : BatchModel μ Λ) (m : μ) : Call → Bool × μ
  | .prefill seq tokens startPos wantLogits =>
    let r := M.prefill m seq tokens startPos wantLogits
    (r.1.isSome, r.2)
  | .decode batch =>
    let r := M.decode m batch
    (r.1.isSome, r.2)
  | .dropSeq seq => (true, M.dropSeq m seq)

/-- A call with its outcome. -/
structure Served (ρ : Type) where
  call : Call
  ok : Bool
  seen : List ρ

/-- The runtime serves a call; `obs` is what it shows of it. -/
def BatchModel.serve (M : BatchModel μ Λ) (obs : μ → List ρ) (s : μ × List (Served ρ)) (c : Call) :
    μ × List (Served ρ) :=
  ((c.exec M s.1).2, s.2 ++ [⟨c, (c.exec M s.1).1, obs (c.exec M s.1).2⟩])

/-- The runtime `M` with the outcome of every call. -/
def BatchModel.observed (M : BatchModel μ Λ) (obs : μ → List ρ) :
    BatchModel (μ × List (Served ρ)) Λ where
  maxBatch := M.maxBatch
  maxSeqLen := M.maxSeqLen
  prefill := fun s seq tokens startPos wantLogits =>
    ((M.prefill s.1 seq tokens startPos wantLogits).1,
      M.serve obs s (.prefill seq tokens startPos wantLogits))
  decode := fun s batch => ((M.decode s.1 batch).1, M.serve obs s (.decode batch))
  dropSeq := fun s seq => M.serve obs s (.dropSeq seq)
  maxBatch_pos := M.maxBatch_pos
  prefill_logits := fun s => M.prefill_logits s.1
  decode_rows := fun s => M.decode_rows s.1

/-- The runtime and its history after some calls. -/
def BatchModel.served (M : BatchModel μ Λ) (obs : μ → List ρ) (m : μ) (calls : List Call) :
    μ × List (Served ρ) :=
  calls.foldl (M.serve obs) (m, [])

theorem BatchModel.served_concat (M : BatchModel μ Λ) (obs : μ → List ρ) (m : μ)
    (calls : List Call) (c : Call) :
    M.served obs m (calls ++ [c]) = M.serve obs (M.served obs m calls) c :=
  List.foldl_concat _ _ _ _

theorem BatchModel.map_call_served (M : BatchModel μ Λ) (obs : μ → List ρ) (m : μ)
    (calls : List Call) : (M.served obs m calls).2.map Served.call = calls := by
  induction calls using List.reverseRecOn with
  | nil => rfl
  | append_singleton calls c ih =>
    rw [served_concat, serve, List.map_append, ih]
    rfl

/-- Every entry of a history is the outcome of its call in some state of the runtime. -/
theorem BatchModel.exec_of_mem_served {M : BatchModel μ Λ} {obs : μ → List ρ} {m : μ}
    {calls : List Call} {e : Served ρ} (he : e ∈ (M.served obs m calls).2) :
    ∃ m', e.ok = (e.call.exec M m').1 ∧ e.seen = obs (e.call.exec M m').2 := by
  induction calls using List.reverseRecOn with
  | nil => exact absurd he List.not_mem_nil
  | append_singleton calls c ih =>
    rw [served_concat] at he
    rcases List.mem_append.mp he with he | he
    · exact ih he
    · rw [List.mem_singleton.mp he]
      exact ⟨_, rfl, rfl⟩

/-! ## Sequences to be dropped -/

/-- The sequences of failed calls, until they are dropped. -/
def Served.owe (ids : List Nat) (e : Served ρ) : List Nat :=
  match e.call with
  | .dropSeq seq => ids.filter fun id => id != seq
  | c => if e.ok then ids else ids ++ c.seqs

def owed (h : List (Served ρ)) : List Nat :=
  h.foldl Served.owe []

/-- Only drops are called while a sequence of a failed call is left. -/
def Quiet (h : List (Served ρ)) : Prop :=
  Along Served.owe (fun ids e => e.call.IsDrop ∨ ids = []) [] h

theorem owed_concat (h : List (Served ρ)) (e : Served ρ) : owed (h ++ [e]) = e.owe (owed h) :=
  List.foldl_concat _ _ _ _

theorem quiet_concat {h : List (Served ρ)} {e : Served ρ} :
    Quiet (h ++ [e]) ↔ Quiet h ∧ (e.call.IsDrop ∨ owed h = []) := by
  unfold Quiet
  rw [along_append]
  simp only [Along, and_true, owed]

/-- A sequence of a failed call that is not dropped stays one. -/
theorem mem_owed_append {h : List (Served ρ)} {id : Nat} (hid : id ∈ owed h)
    {later : List (Served ρ)} (hlater : ∀ e ∈ later, e.call ≠ .dropSeq id) :
    id ∈ owed (h ++ later) := by
  induction later using List.reverseRecOn with
  | nil => rwa [List.append_nil]
  | append_singleton later e ih =>
    have hrest := ih fun e he => hlater e (List.mem_append_left _ he)
    have hne := hlater e (List.mem_append_right _ (List.mem_singleton_self e))
    rw [← List.append_assoc, owed_concat]
    unfold Served.owe
    split
    · next seq hseq =>
      refine List.mem_filter.mpr ⟨hrest, ?_⟩
      rw [hseq] at hne
      simpa using fun heq : id = seq => hne (congrArg _ heq.symm)
    · split
      · exact hrest
      · exact List.mem_append_left _ hrest

/-! ## What the scheduler does after a failure -/

namespace Scheduler

/-- `Owing ids m`: the runtime is in state `m`, with the sequences `ids` to be dropped. -/
structure Tidy (M : BatchModel μ Λ) (Owing : List Nat → μ → Prop) : Prop where
  prefill : ∀ m seq tokens startPos wantLogits, Owing [] m →
    Owing (if (M.prefill m seq tokens startPos wantLogits).1.isSome then [] else [seq])
      (M.prefill m seq tokens startPos wantLogits).2
  decode : ∀ m batch, Owing [] m →
    Owing (if (M.decode m batch).1.isSome then [] else batch.map Prod.fst) (M.decode m batch).2
  dropSeq : ∀ m id ids ids', Owing ids m → (∀ i ∈ ids, i = id ∨ i ∈ ids') →
    Owing ids' (M.dropSeq m id)

variable {M : BatchModel μ Λ} {Owing : List Nat → μ → Prop} {s t : Scheduler μ σ}
  {pre post : List (Sequence σ)} {q : Sequence σ}

namespace Tidy

theorem drop_nil (hT : Tidy M Owing) {m : μ} (h : Owing [] m) (id : Nat) :
    Owing [] (M.dropSeq m id) :=
  hT.dropSeq m id [] [] h fun _ hi => absurd hi List.not_mem_nil

/-- The sequence is taken out, and with it what it owes. -/
theorem finish (hT : Tidy M Owing) (hr : s.running = pre ++ q :: post) {ids ids' : List Nat}
    (h : Owing ids s.model) (hids : ∀ i ∈ ids, i = q.id ∨ i ∈ ids') (reason : FinishReason) :
    Owing ids' (finish M s pre.length reason).model := by
  rw [model_of_core (finish_core M hr reason)]
  exact hT.dropSeq s.model q.id ids ids' h hids

theorem pushToken (hT : Tidy M Owing) (hr : s.running = pre ++ q :: post)
    (h : Owing [] s.model) (token : Token) : Owing [] (pushToken M s pre.length token).model := by
  rcases pushToken_core M hr token with e | ⟨_, _, e⟩
  · rw [model_of_core e]
    exact hT.drop_nil h q.id
  · rw [model_of_core e]
    exact h

theorem preempt (hT : Tidy M Owing) (h : Owing [] s.model) (id : Nat) :
    Owing [] (preempt M s id).model := by
  rcases preempt_cases M s id with ⟨e, _⟩ | ⟨pre, q, post, _, _, e⟩
  · rwa [e]
  · rw [e]
    exact hT.drop_nil h id

variable (sample : σ → Λ → List Token → Token × σ)

theorem prefillOneChunk (hT : Tidy M Owing) (h : Owing [] s.model) :
    Owing [] (prefillOneChunk M sample s).model := by
  rcases prefillOneChunk_cases M sample s with ⟨_, e⟩ | ⟨pre, q, post, d, hr, _, _, hcases⟩
  · rwa [e]
  · have hcalled : Owing (if (prefillReply M s q d).isSome then [] else [q.id])
        (prefillCalled M s q d).model := hT.prefill s.model q.id _ d _ h
    rcases hcases with ⟨_, logits, hreply, e⟩ | ⟨_, hreply, e⟩ | ⟨hreply, e⟩
    · rw [hreply] at hcalled
      rw [e]
      refine hT.pushToken (s := { prefillCalled M s q d with running := _ }) rfl ?_ _
      exact hcalled
    · rw [hreply] at hcalled
      rw [e]
      exact hcalled
    · rw [hreply] at hcalled
      rw [e]
      refine hT.finish (s := prefillCalled M s q d) hr hcalled ?_ .error
      exact fun i hi => Or.inl (List.mem_singleton.mp hi)

/-- The ids of the sequences that decode. -/
def decodingIds (running : List (Sequence σ)) : List Nat :=
  (running.filter fun q => q.phase == .decode).map Sequence.id

theorem decodingIds_concat (hp : q.phase = .decode) (pre : List (Sequence σ)) :
    decodingIds (pre ++ [q]) = decodingIds pre ++ [q.id] := by
  unfold decodingIds
  rw [List.filter_append, List.filter_cons_of_pos (by simp [hp]), List.filter_nil,
    List.map_append]
  rfl

theorem decodingIds_skip (hp : q.phase ≠ .decode) (pre : List (Sequence σ)) :
    decodingIds (pre ++ [q]) = decodingIds pre := by
  unfold decodingIds
  rw [List.filter_append, List.filter_cons_of_neg (by simp [hp]), List.filter_nil,
    List.append_nil]

/-- The ids that are still to be dropped after the decode call of `s`, once the sequences
    after `pre` have been dealt with. -/
def left (M : BatchModel μ Λ) (s : Scheduler μ σ) (pre : List (Sequence σ)) : List Nat :=
  if (M.decode s.model (modelBatch (decodeBatch 0 s.running))).1.isSome then []
  else decodingIds pre

theorem left_of_none (h : (M.decode s.model (modelBatch (decodeBatch 0 s.running))).1 = none)
    (pre : List (Sequence σ)) : left M s pre = decodingIds pre := by
  unfold left
  rw [h]
  rfl

theorem left_nil : left M s [] = [] := by
  unfold left
  split <;> rfl

theorem decodeBatched (hT : Tidy M Owing) (h : Owing [] s.model) :
    Owing [] (decodeBatched M sample s (decodeBatch 0 s.running)).model := by
  have hcalled : Owing (left M s s.running)
      (M.decode s.model (modelBatch (decodeBatch 0 s.running))).2 := by
    have hids : (modelBatch (decodeBatch 0 s.running)).map Prod.fst = decodingIds s.running := by
      rw [modelBatch_decodeBatch, List.map_map]
      rfl
    have hdecode := hT.decode s.model (modelBatch (decodeBatch 0 s.running)) h
    rwa [hids] at hdecode
  have hdone := decodeBatched_rule (M := M) (s := s)
    (Q := fun pre _ t => Owing (left M s pre) t.model) sample ?_ ?_ ?_ hcalled
  · rwa [left_nil] at hdone
  · intro hres pre q post t done hr hp ht
    rw [left_of_none hres, decodingIds_concat hp] at ht
    rw [left_of_none hres]
    refine hT.finish hr ht ?_ .error
    intro i hi
    rcases List.mem_append.mp hi with hi | hi
    · exact Or.inr hi
    · exact Or.inl (List.mem_singleton.mp hi)
  · intro hres pre q post t done logits hr _ ht
    have hnone : ∀ l, left M s l = [] := fun l => if_pos hres
    rw [hnone] at ht ⊢
    rw [sampleAt_mid M sample hr]
    refine hT.pushToken (s := { t with running := _ }) rfl ?_ _
    exact ht
  · intro pre q t done hp ht
    unfold left at ht ⊢
    rwa [decodingIds_skip hp] at ht

theorem decodeStep (hT : Tidy M Owing) (h : Owing [] s.model) :
    Owing [] (decodeStep M sample s).model := by
  have hroom : Owing [] (makeRoom M s).model :=
    makeRoom_rule (P := fun t => Owing [] t.model) (fun _ _ _ _ ht => ht)
      (fun _ id ht => hT.preempt ht id) h
  exact decodeStep_rule (P := fun t => Owing [] t.model) sample h hroom
    (hT.decodeBatched sample hroom)

theorem act (hT : Tidy M Owing) (h : Owing [] s.model) (a : Action σ) :
    Owing [] (act M sample s a).model := by
  cases a with
  | enqueue req =>
    show Owing [] (enqueue M s req).model
    rwa [(enqueue_frame M s req).1]
  | step =>
    have hadmit : Owing [] (admitWaiting s).model := by
      refine admitWaiting_rule (P := fun t => Owing [] t.model) ?_ h
      intro s t hs ha
      obtain ⟨_, _, _, _, _, rfl⟩ := admitOne_some ha
      exact hs
    exact hT.decodeStep sample (hT.prefillOneChunk sample hadmit)

/-- Between two calls of the engine loop nothing is left to be dropped. -/
theorem run (hT : Tidy M Owing) {model : μ} (h : Owing [] model) (cfg : SchedulerConfig)
    (acts : List (Action σ)) : Owing [] (run M sample model cfg acts).model :=
  List.foldlRecOn acts _ (motive := fun s : Scheduler μ σ => Owing [] s.model) h fun _ hs a _ =>
    hT.act sample hs a

end Tidy

/-- The history is that of the calls, and only the sequences `ids` of failed calls are left. -/
structure Tidied (M : BatchModel μ Λ) (obs : μ → List ρ) (m : μ) (ids : List Nat)
    (s : (μ × List (Served ρ)) × List Call) : Prop where
  served : s.1 = M.served obs m s.2
  quiet : Quiet s.1.2
  owed_subset : ∀ i ∈ owed s.1.2, i ∈ ids

theorem Tidied.owed_nil {M : BatchModel μ Λ} {obs : μ → List ρ} {m : μ}
    {s : (μ × List (Served ρ)) × List Call} (h : Tidied M obs m [] s) : owed s.1.2 = [] :=
  List.eq_nil_iff_forall_not_mem.mpr fun i hi => absurd (h.owed_subset i hi) List.not_mem_nil

/-- One more call, when nothing is left or it is a drop. -/
theorem Tidied.call {M : BatchModel μ Λ} {obs : μ → List ρ} {m : μ} {ids ids' : List Nat}
    {s : (μ × List (Served ρ)) × List Call} (h : Tidied M obs m ids s) {c : Call}
    (hc : c.IsDrop ∨ ids = [])
    (hids : ∀ i ∈ Served.owe (owed s.1.2) ⟨c, (c.exec M s.1.1).1, obs (c.exec M s.1.1).2⟩,
      i ∈ ids') : Tidied M obs m ids' (M.serve obs s.1 c, s.2 ++ [c]) := by
  refine ⟨?_, quiet_concat.mpr ⟨h.quiet, ?_⟩, ?_⟩
  · rw [BatchModel.served_concat, ← h.served]
  · rcases hc with hc | rfl
    · exact Or.inl hc
    · exact Or.inr h.owed_nil
  · show ∀ i ∈ owed (s.1.2 ++ _), _
    rw [owed_concat]
    exact hids

theorem tidied_tidy (M : BatchModel μ Λ) (obs : μ → List ρ) (m : μ) :
    Tidy (M.observed obs).recorded (Tidied M obs m) where
  prefill := by
    intro s seq tokens startPos wantLogits h
    refine h.call (c := .prefill seq tokens startPos wantLogits) (Or.inr rfl) ?_
    rw [h.owed_nil]
    exact fun i hi => hi
  decode := by
    intro s batch h
    refine h.call (c := .decode batch) (Or.inr rfl) ?_
    rw [h.owed_nil]
    exact fun i hi => hi
  dropSeq := by
    intro s id ids ids' h hids
    refine h.call (c := .dropSeq id) (Or.inl trivial) ?_
    intro i hi
    obtain ⟨hi, hne⟩ := List.mem_filter.mp hi
    exact (hids i (h.owed_subset i hi)).resolve_left (by simpa using hne)

end Scheduler

/-! ## Faithful runtimes -/

/-- The sequences that the call builds on are held as they have been fed. -/
def Call.Ready (holds : Nat → List Token → Prop) (fed : Nat → List Token) : Call → Prop
  | .prefill seq _ startPos _ => startPos = 0 ∨ holds seq (fed seq) ∧ (fed seq).length = startPos
  | .decode batch => (batch.map Prod.fst).Nodup ∧ ∀ p ∈ batch, holds p.1 (fed p.1)
  | .dropSeq _ => True

/-- What a runtime owes its caller: a call on sequences that it holds leaves them held if it
    succeeds, leaves the others held in any case, and shows what is right for their tokens. -/
structure BatchModel.Faithful (M : BatchModel μ Λ) (obs : μ → List ρ)
    (Holds : μ → Nat → List Token → Prop) (Right : List (List Token) → ρ → Prop) : Prop where
  holds : ∀ m (c : Call) fed, ¬ c.IsDrop → c.Ready (Holds m) fed → (c.exec M m).1 = true →
    ∀ id ∈ c.seqs, Holds (c.exec M m).2 id (c.feed fed id)
  frame : ∀ m (c : Call), ∀ id ∉ c.seqs, ∀ ts, Holds m id ts → Holds (c.exec M m).2 id ts
  right : ∀ m (c : Call) fed, c.Ready (Holds m) fed →
    ∀ x ∈ obs (c.exec M m).2, Right (c.seqs.map (c.feed fed)) x

/-! ## Calls and the sequences they are not about -/

theorem Call.feed_of_not_mem {c : Call} {id : Nat} (h : id ∉ c.seqs) (fed : Nat → List Token) :
    c.feed fed id = fed id := by
  cases c with
  | prefill seq tokens startPos wantLogits =>
    exact Function.update_of_ne (fun he => h (List.mem_singleton.mpr he)) _ _
  | decode batch =>
    show fed id ++ batchTokens batch id = fed id
    rw [batchTokens_eq_nil h, List.append_nil]
  | dropSeq seq => rfl

theorem Call.store_of_not_mem {c : Call} {id : Nat} (h : id ∉ c.seqs) (kv : Nat → Option Held) :
    c.store kv id = kv id := by
  cases c with
  | prefill seq tokens startPos wantLogits =>
    exact Function.update_of_ne (fun he => h (List.mem_singleton.mpr he)) _ _
  | decode batch =>
    show (kv id).map _ = kv id
    rw [batchTokens_eq_nil h]
    simp
  | dropSeq seq => exact Function.update_of_ne (fun he => h (List.mem_singleton.mpr he)) _ _

/-! ## What a faithful runtime shows -/

section Faithful

variable {M : BatchModel μ Λ} {obs : μ → List ρ} {Holds : μ → Nat → List Token → Prop}
  {Right : List (List Token) → ρ → Prop}

/-- What the runtime has shown of the call is right for the tokens fed up to it. -/
def Served.Shown (Right : List (List Token) → ρ → Prop) (calls : List Call) (e : Served ρ) : Prop :=
  ∀ x ∈ e.seen, Right (e.call.seqs.map (fedSince (calls ++ [e.call]))) x

/-- After calls that obey the contract and drop the sequences of failed calls: the sequences
    that are not left from a failed call are held as fed, and all that was shown is right. -/
structure Trusted (Holds : μ → Nat → List Token → Prop) (Right : List (List Token) → ρ → Prop)
    (calls : List Call) (s : μ × List (Served ρ)) : Prop where
  holds : ∀ id, kvAfter calls id ≠ none → id ∉ owed s.2 → Holds s.1 id (fedSince calls id)
  shown : Along (fun calls e => calls ++ [e.call]) (Served.Shown Right) [] s.2

/-- The contract and the trust in what is held make a call ready. -/
theorem Trusted.ready {calls : List Call} {s : μ × List (Served ρ)} {maxBatch : Nat} {c : Call}
    (h : Trusted Holds Right calls s) (hob : Obeyed maxBatch calls)
    (hc : c.Allowed maxBatch (kvAfter calls)) (hquiet : c.IsDrop ∨ owed s.2 = []) :
    c.Ready (Holds s.1) (fedSince calls) := by
  have hheld : owed s.2 = [] → ∀ id k, kvAfter calls id = some k →
      Holds s.1 id (fedSince calls id) := by
    intro hnil id k hk
    refine h.holds id ?_ ?_
    · rw [hk]
      exact Option.some_ne_none k
    · rw [hnil]
      exact List.not_mem_nil
  cases c with
  | prefill seq tokens startPos wantLogits =>
    have hnil := hquiet.resolve_left id
    refine hc.imp_right fun hlen => ?_
    obtain ⟨k, hk, hlen⟩ := Option.map_eq_some_iff.mp hlen
    refine ⟨hheld hnil seq k hk, ?_⟩
    rw [fedSince_of_kvAfter calls hob seq k hk, hlen]
  | decode batch =>
    have hnil := hquiet.resolve_left id
    refine ⟨hc.1, fun p hp => ?_⟩
    obtain ⟨k, hk, _⟩ := hc.2.1 p hp
    exact hheld hnil p.1 k hk
  | dropSeq seq => trivial

theorem fold_calls (h : List (Served ρ)) :
    h.foldl (fun calls e => calls ++ [e.call]) [] = h.map Served.call := by
  induction h using List.reverseRecOn with
  | nil => rfl
  | append_singleton h e ih => rw [List.foldl_concat, ih, List.map_append]; rfl

/-- A sequence that is not left from a failed call after the call: either the call is about
    it, is no drop and has succeeded, or it was not left before. -/
theorem not_mem_owe {ids : List Nat} {e : Served ρ} {id : Nat} (h : id ∉ e.owe ids) :
    id ∈ e.call.seqs ∧ (e.call.IsDrop ∨ e.ok = true) ∨ id ∉ e.call.seqs ∧ id ∉ ids := by
  by_cases hid : id ∈ e.call.seqs
  · refine Or.inl ⟨hid, ?_⟩
    unfold Served.owe at h
    split at h
    · next seq hseq =>
      rw [hseq]
      exact Or.inl trivial
    · split at h
      · next hok => exact Or.inr hok
      · exact absurd (List.mem_append_right _ hid) h
  · refine Or.inr ⟨hid, fun hm => h ?_⟩
    unfold Served.owe
    split
    · next seq hseq =>
      rw [hseq] at hid
      exact List.mem_filter.mpr ⟨hm, by simpa [Call.seqs] using hid⟩
    · split
      · exact hm
      · exact List.mem_append_left _ hm

theorem Trusted.serve (hM : M.Faithful obs Holds Right) {calls : List Call}
    {s : μ × List (Served ρ)} {maxBatch : Nat} {c : Call} (h : Trusted Holds Right calls s)
    (hcalls : s.2.map Served.call = calls) (hob : Obeyed maxBatch calls)
    (hc : c.Allowed maxBatch (kvAfter calls)) (hquiet : c.IsDrop ∨ owed s.2 = []) :
    Trusted Holds Right (calls ++ [c]) (M.serve obs s c) := by
  have hready := h.ready hob hc hquiet
  refine ⟨?_, ?_⟩
  · intro id hkv howed
    rw [kvAfter_append] at hkv
    rw [fedSince_append]
    replace howed : id ∉ owed (s.2 ++ [_]) := howed
    rw [owed_concat] at howed
    rcases not_mem_owe howed with ⟨hid, hok⟩ | ⟨hid, hleft⟩
    · have hdrop : ¬ c.IsDrop := by
        intro hdrop
        obtain ⟨seq, rfl⟩ := hdrop.eq
        rw [List.mem_singleton.mp hid] at hkv
        exact hkv (Function.update_self _ _ _)
      exact hM.holds s.1 c _ hdrop hready (hok.resolve_left hdrop) id hid
    · rw [Call.store_of_not_mem hid] at hkv
      rw [Call.feed_of_not_mem hid]
      exact hM.frame s.1 c id hid _ (h.holds id hkv hleft)
  · refine (along_append _ _ _).mpr ⟨h.shown, ?_, trivial⟩
    rw [fold_calls, hcalls]
    show ∀ x ∈ obs (c.exec M s.1).2, Right (c.seqs.map (fedSince (calls ++ [c]))) x
    rw [fedSince_append]
    exact hM.right s.1 c _ hready

/-- Every history that obeys the contract and drops the sequences of failed calls is
    trusted. -/
theorem BatchModel.Faithful.trusted (hM : M.Faithful obs Holds Right) (m : μ) {maxBatch : Nat}
    (calls : List Call) (hob : Obeyed maxBatch calls) (hquiet : Quiet (M.served obs m calls).2) :
    Trusted Holds Right calls (M.served obs m calls) := by
  induction calls using List.reverseRecOn with
  | nil => exact ⟨fun id hid => absurd rfl hid, trivial⟩
  | append_singleton calls c ih =>
    obtain ⟨hob, hc⟩ := obeyed_append.mp hob
    rw [served_concat] at hquiet ⊢
    obtain ⟨hq, hlast⟩ := quiet_concat.mp hquiet
    exact (ih hob hq).serve hM (map_call_served M obs m calls) hob hc hlast

end Faithful

/-! ## After a failed call -/

/-- A call that takes part in a sequence and does not start it needs its KV. -/
theorem Call.Allowed.held {maxBatch : Nat} {kv : Nat → Option Held} {c : Call}
    (h : c.Allowed maxBatch kv) {id : Nat} (hid : id ∈ c.seqs) (hdrop : ¬ c.IsDrop)
    (hrestart : ¬ c.Restarts id) : kv id ≠ none := by
  intro hnone
  cases c with
  | prefill seq tokens startPos wantLogits =>
    rw [List.mem_singleton.mp hid] at hnone hrestart
    rcases h with h | h
    · exact hrestart ⟨rfl, h⟩
    · rw [hnone] at h
      exact absurd h (by simp)
  | decode batch =>
    obtain ⟨p, hp, rfl⟩ := List.mem_map.mp hid
    obtain ⟨k, hk, _⟩ := h.2.1 p hp
    rw [hnone] at hk
    exact absurd hk (by simp)
  | dropSeq seq => exact hdrop trivial

theorem obeyed_mid {maxBatch : Nat} {xs ys : List Call} {c : Call}
    (h : Obeyed maxBatch (xs ++ c :: ys)) :
    Obeyed maxBatch xs ∧ c.Allowed maxBatch (kvAfter xs) := by
  obtain ⟨hxs, hc, _⟩ := (along_append _ xs _).mp h
  exact ⟨hxs, hc⟩

/-- A sequence without KV has none until it is started anew. -/
theorem kvAfter_append_eq_none {maxBatch : Nat} {xs ys : List Call} {id : Nat}
    (hob : Obeyed maxBatch (xs ++ ys)) (h : kvAfter xs id = none)
    (hno : ∀ c ∈ ys, ¬ c.Restarts id) : kvAfter (xs ++ ys) id = none := by
  induction ys using List.reverseRecOn with
  | nil => rwa [List.append_nil]
  | append_singleton ys c ih =>
    rw [← List.append_assoc] at hob ⊢
    obtain ⟨hob, hc⟩ := obeyed_append.mp hob
    have hnone := ih hob fun c hc => hno c (List.mem_append_left _ hc)
    have hrestart := hno c (List.mem_append_right _ (List.mem_singleton_self c))
    rw [kvAfter_append]
    by_cases hid : id ∈ c.seqs
    · by_cases hdrop : c.IsDrop
      · obtain ⟨seq, rfl⟩ := hdrop.eq
        rw [List.mem_singleton.mp hid]
        exact Function.update_self _ _ _
      · exact absurd hnone (hc.held hid hdrop hrestart)
    · rw [Call.store_of_not_mem hid, hnone]

/-- A sequence of a failed call takes part in another prefill or decode call only once it has
    been started anew. -/
theorem restarted_of_failed {maxBatch : Nat} {before between : List (Served ρ)}
    {f e : Served ρ} {rest : List (Served ρ)} {id : Nat}
    (hquiet : Quiet ((before ++ f :: between) ++ e :: rest))
    (hob : Obeyed maxBatch (((before ++ f :: between) ++ e :: rest).map Served.call))
    (hfdrop : ¬ f.call.IsDrop) (hok : f.ok = false) (hf : id ∈ f.call.seqs)
    (hedrop : ¬ e.call.IsDrop) (he : id ∈ e.call.seqs) :
    ∃ g ∈ between ++ [e], g.call.Restarts id := by
  by_contra hno
  have hnone : ∀ g ∈ between ++ [e], ¬ g.call.Restarts id := by
    intro g hg hr
    exact hno ⟨g, hg, hr⟩
  have hnil : owed (before ++ f :: between) = [] :=
    ((along_append _ _ _).mp hquiet).2.1.resolve_left hedrop
  rw [List.map_append, List.map_cons] at hob
  obtain ⟨hpast, hallowed⟩ := obeyed_mid hob
  have hheld := hallowed.held he hedrop (hnone e (by simp))
  -- the sequence was dropped in between
  obtain ⟨d, hd, hdrop⟩ : ∃ d ∈ between, d.call = .dropSeq id := by
    by_contra hkept
    have howed : id ∈ owed (before ++ [f]) := by
      rw [owed_concat]
      unfold Served.owe
      split
      · next seq hseq =>
        rw [hseq] at hfdrop
        exact absurd trivial hfdrop
      · rw [if_neg (by rw [hok]; exact Bool.false_ne_true)]
        exact List.mem_append_right _ hf
    have hstill : id ∈ owed ((before ++ [f]) ++ between) :=
      mem_owed_append howed fun d hd hdrop => hkept ⟨d, hd, hdrop⟩
    rw [List.append_assoc, List.singleton_append, hnil] at hstill
    exact List.not_mem_nil hstill
  -- and has had no KV since
  obtain ⟨b1, b2, rfl⟩ := List.append_of_mem hd
  have hsplit : (before ++ f :: (b1 ++ d :: b2)).map Served.call =
      ((before ++ f :: b1).map Served.call ++ [.dropSeq id]) ++ b2.map Served.call := by
    rw [← hdrop]
    simp
  rw [hsplit] at hpast hheld
  refine hheld (kvAfter_append_eq_none hpast ?_ ?_)
  · rw [kvAfter_append]
    exact Function.update_self _ _ _
  · intro c hc
    obtain ⟨g, hg, rfl⟩ := List.mem_map.mp hc
    exact hnone g (by simp [hg])

/-! ## Runs -/

/-- The history of a run is that of calls which obey the contract and which drop the
    sequences of failed calls. -/
theorem run_served (M : BatchModel μ Λ) (obs : μ → List ρ)
    (sample : σ → Λ → List Token → Token × σ) (m : μ) (cfg : SchedulerConfig)
    (acts : List (Scheduler.Action σ)) :
    ∃ calls, (Scheduler.run (M.observed obs) sample (m, []) cfg acts).model =
        M.served obs m calls ∧
      Obeyed M.maxBatch calls ∧ Quiet (M.served obs m calls).2 := by
  have hstart : Scheduler.Tidied M obs m [] ((m, []), []) := ⟨rfl, trivial, fun i hi => hi⟩
  have htidied : Scheduler.Tidied M obs m []
      (Scheduler.run (M.observed obs).recorded sample ((m, []), []) cfg acts).model :=
    (Scheduler.tidied_tidy M obs m).run sample hstart cfg acts
  have hinv := Scheduler.run_inv (M := M.observed obs) sample (m, []) cfg acts
  refine ⟨_, ?_, hinv.obeyed, ?_⟩
  · rw [Scheduler.run_recorded]
    exact htidied.served
  · have hquiet := htidied.quiet
    rwa [htidied.served] at hquiet

end Cognitora.Infer
