/-
  The continuous-batching scheduler (cgn-infer `src/scheduler/mod.rs`).

  One `step` is admit, prefill one chunk, decode. The runtime is any `BatchModel`, the
  sampler any state machine `sample` (`Sampler::sample` works on `f32` logits and a
  seeded RNG), the tokenizer any partial function from tokens to text.

  Clients. `sent` is what the request channels have received, each event tagged with the
  id of its request. A client is gone after `hangup` events: `blocking_send` then errs.
  It returns in every case here; a full channel whose client neither reads nor hangs up is
  in `Infer/Backpressure`.

  Text slices that Rust would panic on set `badSlice` and yield the empty text.
-/
import Cognitora.Infer.Kv
import Cognitora.Infer.Runtime
import Cognitora.Infer.Text

namespace Cognitora.Infer

/-- Scheduler tuning knobs. -/
structure SchedulerConfig where
  maxBatch : Nat := 8
  prefillChunk : Nat := 512
  kvPoolTokens : Nat := 64 * 1024

inductive FinishReason where
  | stop
  | length
  | error
  deriving DecidableEq

/-- One streamed chunk of output. -/
structure StreamEvent where
  delta : Text
  finishReason : Option FinishReason
  promptTokens : Nat
  completionTokens : Nat
  deriving DecidableEq

/-- The sending half of a client's channel. The client drops its half after `hangup`
    events (`none`: it never does). -/
structure Tx where
  hangup : Option Nat := none

/-- What the HTTP layer submits. `params` is the sampler built from the request's
    parameters, `tokenizer` is `decode(tokens, skip_special_tokens)`. -/
structure Request (σ : Type) where
  promptTokens : List Token
  maxTokens : Nat
  stop : List Text
  params : σ
  tokenizer : List Token → Option Text
  eosTokenId : Option Token
  tx : Tx := {}

/-- A request of `n` equal tokens whose text has one letter per token, for concrete runs. -/
def Request.plain (n maxTokens : Nat) : Request Unit where
  promptTokens := List.replicate n 7
  maxTokens := maxTokens
  stop := []
  params := ()
  tokenizer := fun ts => some (ts.map fun _ => 'a')
  eosTokenId := none

inductive Phase where
  /-- `done` prompt tokens are already in the runtime's KV state. -/
  | prefill (done : Nat)
  | decode
  deriving DecidableEq

structure Sequence (σ : Type) where
  id : Nat
  req : Request σ
  phase : Phase
  /-- Prompt + generated tokens. -/
  tokens : List Token
  promptLen : Nat
  generated : List Token
  sampler : σ
  /-- Bytes of decoded text already emitted. -/
  emittedLen : Nat
  /-- Admission order tick, used to pick preemption victims. -/
  admittedAt : Nat

def Sequence.budget {σ : Type} (q : Sequence σ) (maxSeqLen : Nat) : Nat :=
  min q.req.maxTokens (maxSeqLen - q.promptLen)

structure Scheduler (μ σ : Type) where
  model : μ
  cfg : SchedulerConfig
  pool : KvPool
  waiting : List (Sequence σ)
  running : List (Sequence σ)
  nextId : Nat
  tick : Nat
  sent : List (Nat × StreamEvent)
  badSlice : Bool

variable {μ ν Λ σ : Type}

namespace Scheduler

/-- `blocking_send` on the channel of request `id`. -/
def send (s : Scheduler μ σ) (id : Nat) (tx : Tx) (ev : StreamEvent) : Bool × Scheduler μ σ :=
  let received := (s.sent.filter fun e => e.1 == id).length
  match tx.hangup with
  | some n => if n ≤ received then (false, s) else (true, { s with sent := s.sent ++ [(id, ev)] })
  | none => (true, { s with sent := s.sent ++ [(id, ev)] })

/-- `text[a..b]` inside the scheduler. -/
def sliceText (s : Scheduler μ σ) (text : Text) (a b : Nat) : Text × Scheduler μ σ :=
  match slice text a b with
  | some t => (t, s)
  | none => ([], { s with badSlice := true })

/-! ## Construction and submission -/

/-- `cfg.max_batch.clamp(1, model.max_batch())`. -/
def clamp (n lo hi : Nat) : Nat :=
  if n < lo then lo else if hi < n then hi else n

def new (M : BatchModel μ Λ) (model : μ) (cfg : SchedulerConfig) : Scheduler μ σ where
  model := model
  cfg := { cfg with
    maxBatch := clamp cfg.maxBatch 1 M.maxBatch
    prefillChunk := max cfg.prefillChunk 1 }
  pool := KvPool.new (max (KvPool.blocksFor cfg.kvPoolTokens) 1)
  waiting := []
  running := []
  nextId := 1
  tick := 0
  sent := []
  badSlice := false

def enqueue (M : BatchModel μ Λ) (s : Scheduler μ σ) (req : Request σ) : Scheduler μ σ :=
  let id := s.nextId
  let s := { s with nextId := s.nextId + 1 }
  if req.promptTokens.isEmpty || decide (M.maxSeqLen ≤ req.promptTokens.length) then
    (s.send id req.tx
      { delta := [], finishReason := some .error,
        promptTokens := req.promptTokens.length, completionTokens := 0 }).2
  else
    { s with waiting := s.waiting ++ [{
        id := id
        req := req
        phase := .prefill 0
        tokens := req.promptTokens
        promptLen := req.promptTokens.length
        generated := []
        sampler := req.params
        emittedLen := 0
        admittedAt := 0 }] }

/-! ## Leaving the running set -/

/-- The lines shared by `preempt`, `finish` and `finish_silent`: take `running[idx]` out
    and give back what it holds in the pool and in the runtime. -/
def removeRunning (M : BatchModel μ Λ) (s : Scheduler μ σ) (idx : Nat) (q : Sequence σ) :
    Scheduler μ σ :=
  { s with
    running := s.running.eraseIdx idx
    pool := s.pool.release q.id
    model := M.dropSeq s.model q.id }

/-- Move a running sequence back to the wait queue, dropping its KV. -/
def preempt (M : BatchModel μ Λ) (s : Scheduler μ σ) (id : Nat) : Scheduler μ σ :=
  match s.running.findIdx? (fun q => q.id == id) with
  | none => s
  | some idx =>
    match s.running[idx]? with
    | none => s
    | some q =>
      let s := removeRunning M s idx q
      { s with waiting := { q with phase := .prefill 0 } :: s.waiting }

/-- Remove `running[idx]`, flush held-back text, send the final frame. -/
def finish (M : BatchModel μ Λ) (s : Scheduler μ σ) (idx : Nat) (reason : FinishReason) :
    Scheduler μ σ :=
  match s.running[idx]? with
  | none => s
  | some q =>
    let s := removeRunning M s idx q
    let s :=
      if reason = .length then
        match q.req.tokenizer q.generated with
        | none => s
        | some text =>
          if q.emittedLen < byteLen text then
            let d := s.sliceText text q.emittedLen (byteLen text)
            (d.2.send q.id q.req.tx
              { delta := d.1, finishReason := none,
                promptTokens := q.promptLen, completionTokens := q.generated.length }).2
          else s
      else s
    (s.send q.id q.req.tx
      { delta := [], finishReason := some reason,
        promptTokens := q.promptLen, completionTokens := q.generated.length }).2

/-- Drop a sequence without emitting (client disconnected). -/
def finishSilent (M : BatchModel μ Λ) (s : Scheduler μ σ) (idx : Nat) : Scheduler μ σ :=
  match s.running[idx]? with
  | none => s
  | some q => removeRunning M s idx q

/-! ## Appending a sampled token -/

/-- The stop-string branch of `push_token`: flush up to the first hit, then finish. -/
def stopAt (M : BatchModel μ Λ) (s : Scheduler μ σ) (idx : Nat) (q : Sequence σ) (text : Text)
    (hit : Nat) : Scheduler μ σ :=
  let head := s.sliceText text 0 hit
  let s := head.2
  -- `.get(emitted_len..).unwrap_or("")`
  let delta := (dropBytes head.1 q.emittedLen).getD []
  let s :=
    if delta.isEmpty then s
    else
      let s := { s with running := s.running.set idx { q with emittedLen := hit } }
      (s.send q.id q.req.tx
        { delta := delta, finishReason := none,
          promptTokens := q.promptLen, completionTokens := q.generated.length }).2
  finish M s idx .stop

/-- The emission branch of `push_token`: send new complete text, holding back partial
    UTF-8 and partial stop-string matches. The flag is set when the client is gone. -/
def emitNew (s : Scheduler μ σ) (idx : Nat) (q : Sequence σ) (text : Text) :
    Bool × Scheduler μ σ :=
  if !endsIncomplete text && decide (q.emittedLen < byteLen text) then
    let safeLen := heldBackLen text q.req.stop
    if q.emittedLen < safeLen then
      let d := s.sliceText text q.emittedLen safeLen
      let s := d.2
      let s := { s with running := s.running.set idx { q with emittedLen := safeLen } }
      let r := s.send q.id q.req.tx
        { delta := d.1, finishReason := none,
          promptTokens := q.promptLen, completionTokens := q.generated.length }
      (!r.1, r.2)
    else (false, s)
  else (false, s)

/-- The rest of `push_token` once `q`, with the new token, is stored at `running[idx]`. -/
def emitOrFinish (M : BatchModel μ Λ) (s : Scheduler μ σ) (idx : Nat) (q : Sequence σ) :
    Scheduler μ σ :=
  match q.req.tokenizer q.generated with
  | none => finish M s idx .error
  | some text =>
    match (q.req.stop.filterMap (find text)).min? with
    | some hit => stopAt M s idx q text hit
    | none =>
      let r := emitNew s idx q text
      if r.1 then finishSilent M r.2 idx
      else if q.budget M.maxSeqLen ≤ q.generated.length then finish M r.2 idx .length
      else r.2

/-- Append a sampled token to `running[idx]`, emit incremental text, and finish the
    sequence on EOS / stop string / budget. -/
def pushToken (M : BatchModel μ Λ) (s : Scheduler μ σ) (idx : Nat) (token : Token) :
    Scheduler μ σ :=
  match s.running[idx]? with
  | none => s
  | some q =>
    if some token = q.req.eosTokenId then finish M s idx .stop
    else
      let q := { q with generated := q.generated ++ [token], tokens := q.tokens ++ [token] }
      emitOrFinish M { s with running := s.running.set idx q } idx q

/-! ## Admission -/

/-- One round of the `admit` loop; `none` when the loop ends. -/
def admitOne (s : Scheduler μ σ) : Option (Scheduler μ σ) :=
  if s.running.length < s.cfg.maxBatch then
    match s.waiting with
    | [] => none
    | q :: rest =>
      -- the whole prompt plus one decode block
      let r := s.pool.reserve q.id (q.promptLen + 1)
      if r.1 then
        some { s with
          pool := r.2
          waiting := rest
          tick := s.tick + 1
          running := s.running ++ [{ q with admittedAt := s.tick + 1 }] }
      else none
  else none

def admitRounds : Nat → Scheduler μ σ → Scheduler μ σ
  | 0, s => s
  | n + 1, s =>
    match admitOne s with
    | none => s
    | some s' => admitRounds n s'

/-- Every round takes one sequence out of `waiting`, so its length bounds the rounds. -/
def admitWaiting (s : Scheduler μ σ) : Scheduler μ σ :=
  admitRounds s.waiting.length s

/-! ## Chunked prefill -/

/-- The oldest prefilling sequence: its index, the sequence, and its `done`. -/
def prefillTarget : List (Sequence σ) → Option (Nat × Sequence σ × Nat)
  | [] => none
  | q :: qs =>
    match q.phase with
    | .prefill done => some (0, q, done)
    | .decode => (prefillTarget qs).map fun r => (r.1 + 1, r.2)

/-- Tokens taken by the next chunk of `q`. -/
def chunkLen (s : Scheduler μ σ) (q : Sequence σ) (done : Nat) : Nat :=
  min (q.promptLen - done) s.cfg.prefillChunk

variable (M : BatchModel μ Λ) (sample : σ → Λ → List Token → Token × σ)

/-- Process one prefill chunk for the oldest prefilling sequence. -/
def prefillOneChunk (s : Scheduler μ σ) : Scheduler μ σ :=
  match prefillTarget s.running with
  | none => s
  | some (idx, q, done) =>
    let take := chunkLen s q done
    let lastChunk := decide (take = q.promptLen - done)
    let chunk := (q.tokens.drop done).take take
    let r := M.prefill s.model q.id chunk done lastChunk
    let s := { s with model := r.2 }
    match r.1 with
    | some (some logits) =>
      let next := sample q.sampler logits q.tokens
      let s := { s with
        running := s.running.set idx { q with phase := .decode, sampler := next.2 } }
      pushToken M s idx next.1
    | some none =>
      { s with running := s.running.set idx { q with phase := .prefill (done + take) } }
    | none => finish M s idx .error

/-! ## Batched decode -/

/-- `max_by_key(|s| s.admitted_at)`: the last of the maximal elements. -/
def youngest : List (Sequence σ) → Option (Sequence σ)
  | [] => none
  | q :: qs =>
    match youngest qs with
    | none => some q
    | some r => if r.admittedAt < q.admittedAt then some q else some r

/-- Make sure `id` can hold `need` tokens of KV, preempting the most recently admitted
    other sequences if necessary. Every round but the last preempts one of them, so
    `running.len() + 1` rounds are enough. -/
def ensureRoom : Nat → Scheduler μ σ → Nat → Nat → Bool × Scheduler μ σ
  | 0, s, _, _ => (false, s)
  | n + 1, s, id, need =>
    let r := s.pool.reserve id need
    let s := { s with pool := r.2 }
    if r.1 then (true, s)
    else
      match youngest (s.running.filter fun q => q.id != id) with
      | some v => ensureRoom n (preempt M s v.id) id need
      | none => (false, preempt M s id)

/-- Decode-phase sequences with the positions they need after this step. -/
def candidates (s : Scheduler μ σ) : List (Nat × Nat) :=
  (s.running.filter fun q => q.phase == .decode).map fun q => (q.id, q.tokens.length + 1)

/-- One round of the first loop of `decode_step`. An earlier round may have preempted the
    candidate. -/
def roomFor (s : Scheduler μ σ) (c : Nat × Nat) : Scheduler μ σ :=
  if s.running.any (fun q => q.id == c.1) then
    (ensureRoom M (s.running.length + 1) s c.1 c.2).2
  else s

/-- The first loop of `decode_step`: KV room for every candidate still running. -/
def makeRoom (s : Scheduler μ σ) : Scheduler μ σ :=
  s.candidates.foldl (roomFor M) s

/-- The final batch from position `i` of `running` on: index, id and last token of every
    sequence in decode phase. -/
def decodeBatch : Nat → List (Sequence σ) → List (Nat × Nat × Token)
  | _, [] => []
  | i, q :: qs =>
    if q.phase = .decode then (i, q.id, q.tokens.getLast?.getD 0) :: decodeBatch (i + 1) qs
    else decodeBatch (i + 1) qs

/-- Sample for `running[idx]` and append the token. -/
def sampleAt (s : Scheduler μ σ) (idx : Nat) (logits : Λ) : Scheduler μ σ :=
  match s.running[idx]? with
  | none => s
  | some q =>
    let next := sample q.sampler logits q.tokens
    pushToken M { s with running := s.running.set idx { q with sampler := next.2 } } idx next.1

/-- What `decode_step` passes to the runtime. -/
def modelBatch (batch : List (Nat × Nat × Token)) : List (Nat × Token) :=
  batch.map Prod.snd

/-- The rest of `decode_step`, from the final batch on. -/
def decodeBatched (s : Scheduler μ σ) (batch : List (Nat × Nat × Token)) : Scheduler μ σ :=
  let r := M.decode s.model (modelBatch batch)
  let s := { s with model := r.2 }
  match r.1 with
  | none => batch.reverse.foldl (fun s b => finish M s b.1 .error) s
  | some rows => (batch.zip rows).reverse.foldl (fun s b => sampleAt M sample s b.1.1 b.2) s

/-- Advance all decode-phase sequences by one token. -/
def decodeStep (s : Scheduler μ σ) : Scheduler μ σ :=
  if s.candidates.isEmpty then s
  else
    let s := makeRoom M s
    let batch := decodeBatch 0 s.running
    if batch.isEmpty then s else decodeBatched M sample s batch

/-- One scheduler iteration: admit, prefill one chunk, decode. -/
def step (s : Scheduler μ σ) : Scheduler μ σ :=
  decodeStep M sample (prefillOneChunk M sample (admitWaiting s))

/-! ## Runs -/

/-- What the engine loop does to its scheduler. -/
inductive Action (σ : Type) where
  | enqueue (req : Request σ)
  | step

def act (s : Scheduler μ σ) : Action σ → Scheduler μ σ
  | .enqueue req => enqueue M s req
  | .step => step M sample s

/-- The state after a run of `enqueue` and `step` calls on a new scheduler. -/
def run (model : μ) (cfg : SchedulerConfig) (acts : List (Action σ)) : Scheduler μ σ :=
  acts.foldl (act M sample) (new M model cfg)

end Scheduler

end Cognitora.Infer
