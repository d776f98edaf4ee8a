/-
  Serving a chat or text request once it is authorized (cgn-router `src/gateway/generate.rs`
  from `collect` on, `src/gateway/chat.rs` `serve`, `src/cascade.rs`).

  A request is opened once, or with a cascade once for each step until an answer is confident
  enough; early steps are buffered. Opening one may open several token streams: those of prefill
  nodes, of attempts that bring no first token, of a federation peer, and the one the flow
  reads. A buffered flow is charged when it has ended, a streamed one when its pump stops.
  `charged_iff`: the tokens charged are the usage of all the tokens received on all the streams
  opened, exactly if nothing is owed for the streams of `unsettled`: those an opening leaves
  behind, early steps that are not accepted, a buffered flow that fails, a streamed chat whose
  client left before the role chunk, and everything received for a client that left while the
  handler was at work.

  The handler is a sequence of awaits, and the client leaves after a number of them, which drops
  it, or after a number of events of a streamed answer, from which on sending fails. Awaits that
  bring nothing of a stream are left out. Tool calls and logprobs of a buffered answer and the
  JSON of the chunks are in `Router/Render`; the metrics are not modelled.
-/
import Cognitora.Router.Authz
import Cognitora.Router.Roles

namespace Cognitora.Router

open Cognitora.Auth Cognitora.Lib Cognitora.Core

/-! ## Usage of a token stream -/

structure Usage where
  promptTokens : UInt32
  completionTokens : UInt32
  totalTokens : UInt32

/-- Running totals over a token stream. -/
structure Tally where
  chunks : UInt32
  logprobSum : Float
  logprobN : UInt32
  promptTokens : UInt32
  completionTokens : UInt32

namespace Tally

/-- `Tally::default`. -/
def empty : Tally where
  chunks := 0
  logprobSum := 0
  logprobN := 0
  promptTokens := 0
  completionTokens := 0

def observe (tally : Tally) (t : Token) : Tally where
  chunks := if !t.text.isEmpty || !t.toolCallsJson.isEmpty then tally.chunks + 1 else tally.chunks
  logprobSum :=
    if t.logprob != 0 then tally.logprobSum + t.logprob.toFloat else tally.logprobSum
  logprobN := if t.logprob != 0 then tally.logprobN + 1 else tally.logprobN
  promptTokens := max tally.promptTokens t.promptTokens
  completionTokens := max tally.completionTokens t.completionTokens

/-- Engine-reported usage, or the router's estimate where it has none. -/
def usage (tally : Tally) (promptEstimate : UInt32) : Usage :=
  let prompt := if tally.promptTokens > 0 then tally.promptTokens else promptEstimate
  let completion :=
    if tally.completionTokens > 0 then tally.completionTokens else tally.chunks
  { promptTokens := prompt, completionTokens := completion, totalTokens := prompt + completion }

def meanLogprob (tally : Tally) : Option Float32 :=
  if tally.logprobN > 0 then some (tally.logprobSum / tally.logprobN.toFloat).toFloat32 else none

end Tally

/-! ## Streams received -/

/-- A stream with the tokens received on it. -/
structure Received where
  promptEstimate : UInt32
  tokens : List Token

/-- The usage of the tokens received on a stream. -/
def usageOf (promptEstimate : UInt32) (tokens : List Token) : Usage :=
  (tokens.foldl Tally.observe .empty).usage promptEstimate

/-- Prompt plus completion. -/
def Usage.tokens (u : Usage) : Nat :=
  u.promptTokens.toNat + u.completionTokens.toNat

def Received.owed (r : Received) : Nat :=
  (usageOf r.promptEstimate r.tokens).tokens

/-- What is owed for all the streams. -/
def totalOwed (received : List Received) : Nat :=
  (received.map Received.owed).sum

/-- What an await of the handler brings. -/
inductive Await where
  | opened (promptEstimate : UInt32)
  /-- A token of the stream opened last. -/
  | token (t : Token)
  /-- The end of a stream, an error or a timeout. -/
  | nothing

/-- The streams so far, the newest first. -/
def Await.note (received : List Received) : Await → List Received
  | .opened promptEstimate => ⟨promptEstimate, []⟩ :: received
  | .token t =>
    match received with
    | [] => []
    | r :: older => { r with tokens := r.tokens ++ [t] } :: older
  | .nothing => received

def receivedBy (awaits : List Await) : List Received :=
  awaits.foldl Await.note []

/-- Awaits of the handler, then what they come to. -/
structure Run (α : Type) where
  awaits : List Await
  result : α

/-- A run after other awaits. -/
def Run.after {α : Type} (awaits : List Await) (r : Run α) : Run α :=
  { r with awaits := awaits ++ r.awaits }

/-! ## Opening a flow -/

/-- The token of an item, if it is one. -/
def FirstItem.tokens : FirstItem → List Token
  | .item (some (.ok t)) => [t]
  | _ => []

/-- A stream is opened and one item of it awaited. -/
def FirstItem.awaits (promptEstimate : UInt32) (i : FirstItem) : List Await :=
  [.opened promptEstimate,
    match i with
    | .item (some (.ok t)) => .token t
    | _ => .nothing]

/-- The awaits of an attempt on its prefill and its decode stream. -/
def Tried.awaits (promptEstimate : UInt32) (t : Tried Feed) : List Await :=
  (match t.dispatched.prefilled with
    | some item => (FirstItem.item item).awaits promptEstimate
    | none => []) ++
    match t.first with
    | some _ => t.moment.stream.firstItem.awaits promptEstimate
    | none => []

def Opened.awaits (promptEstimate : UInt32) (o : Opened Feed) : List Await :=
  o.attempts.flatMap (Tried.awaits promptEstimate) ++
    match o.peer with
    | some peer => peer.firstItem.awaits promptEstimate
    | none => []

/-- `open` of one model: admission, then the attempts. -/
structure Opening where
  /-- The error of a request that is not admitted. -/
  refused : Option Error
  call : OpenCall Feed
  moments : Nat → Moment Feed

/-- An open flow over a stream that ends. -/
abbrev Live : Type :=
  TokenFlow Feed

/-- The tokens of a flow, the first included. -/
def TokenFlow.tokens (live : Live) : List Token :=
  live.first :: live.rest.tokens

/-- The status the stream fails with in the end, if it does. -/
def TokenFlow.failure (live : Live) : Option Status :=
  live.rest.failure

namespace Opening

variable (hash : List UInt8 → Digest) (o : Opening)

def opened : Opened Feed :=
  match o.refused with
  | some e => .ending (.error e)
  | none => o.call.openFlow hash o.moments

/-- `generate::open`. -/
def run : Run (Except Error Live) where
  awaits := (o.opened hash).awaits o.call.promptEstimate
  result := (o.opened hash).result

end Opening

/-! ## Buffered answers -/

/-- A finished, fully buffered generation. -/
structure Generated where
  text : String
  finish : String
  usage : Usage
  meanLogprob : Option Float32

namespace Generated

def empty : Generated where
  text := ""
  finish := "stop"
  usage := ⟨0, 0, 0⟩
  meanLogprob := none

def push (out : Generated) (t : Token) : Generated :=
  { out with
    text := out.text ++ t.text
    finish := if !t.finish.isEmpty then t.finish else out.finish }

end Generated

/-- The loop of `collect`. -/
def collectRest (live : Live) : List Token → Tally → Generated → Except Error Generated
  | [], tally, out =>
    match live.failure with
    | some s => .error (.internal ("stream: " ++ s.shown))
    | none =>
      .ok
        { out with
          usage := tally.usage live.promptEstimate
          meanLogprob := tally.meanLogprob }
  | t :: rest, tally, out => collectRest live rest (tally.observe t) (out.push t)

/-- Drain a flow. -/
def collect (live : Live) : Except Error Generated :=
  collectRest live live.tokens .empty .empty

/-- Draining awaits the tokens after the first, which is at hand, and the end. -/
def collectAwaits (live : Live) : List Await :=
  live.rest.tokens.map .token ++ [.nothing]

/-! ## Cascades -/

structure Cascade where
  steps : List String
  threshold : Float32
  /-- `from_config` makes none of an empty chain. -/
  nonempty : steps ≠ []

/-- Decide whether to escalate after an outcome of so many tokens. -/
def Cascade.shouldEscalate (casc : Cascade) (tokens : UInt32) (logprob : Float32) : Bool :=
  tokens == 0 || logprob < casc.threshold

/-- Length-based stand-in for engines that do not report logprobs. -/
def heuristicLogprob (tokens : UInt32) : Float32 :=
  -1.0 / max (Float32.log (max tokens.toFloat32 1.0)) 0.5

inductive Resolved where
  | live (l : Live)
  | done (g : Generated)

section

variable (hash : List UInt8 → Digest)

/-- The steps of a cascade from number `k` on: the early ones, then the last. -/
def resolveFrom (casc : Cascade) (opens : Nat → Opening) :
    List String → Nat → Run (Except Error Resolved)
  | [], k =>
    let o := (opens k).run hash
    { awaits := o.awaits, result := o.result.map .live }
  | _ :: early, k =>
    let o := (opens k).run hash
    match o.result with
    | .error _ => (resolveFrom casc opens early (k + 1)).after o.awaits
    | .ok live =>
      let awaits := o.awaits ++ collectAwaits live
      match collect live with
      | .error _ => (resolveFrom casc opens early (k + 1)).after awaits
      | .ok g =>
        let tokens := g.usage.completionTokens
        if casc.shouldEscalate tokens (g.meanLogprob.getD (heuristicLogprob tokens)) then
          (resolveFrom casc opens early (k + 1)).after awaits
        else { awaits, result := .ok (.done g) }

/-- Run the early steps, then the last; `opens k` opens the model of step `k`. -/
def resolveCascade (casc : Cascade) (opens : Nat → Opening) : Run (Except Error Resolved) :=
  resolveFrom hash casc opens casc.steps.dropLast 0

/-- A plain request opens one flow. -/
def resolvePlain (opens : Nat → Opening) : Run (Except Error Resolved) :=
  let o := (opens 0).run hash
  { awaits := o.awaits, result := o.result.map .live }

end

/-! ## Streamed answers -/

inductive Surface where
  | chat
  | text
  deriving DecidableEq

inductive SseEvent where
  | role
  | token (t : Token)
  | text (s : String)
  | finish (s : String)
  | usage (u : Usage)
  | fail (code : Code) (message : String)

/-- The channel to the client, who takes `takes` more events, and the events taken. -/
structure Channel where
  takes : Option Nat
  events : List SseEvent

/-- `Sender::send`: fails when the client has left. -/
def Channel.send (ch : Channel) (e : SseEvent) : Bool × Channel :=
  if ch.takes = some 0 then (false, ch)
  else (true, { takes := ch.takes.map (· - 1), events := ch.events ++ [e] })

/-- How pumping a flow went, with the usage to settle. -/
structure Pumped where
  received : List Token
  usage : Option Usage
  channel : Channel
  ok : Bool

/-- What the response needs besides the tokens. -/
structure ResponseCtx where
  surface : Surface
  includeUsage : Bool
  caller : Caller

/-- After the loop of `pump`: the failure or the usage is reported. -/
def pumpEnd (ctx : ResponseCtx) (live : Live) (tally : Tally) (failure : Option Status)
    (ch : Channel) : Pumped :=
  let usage := tally.usage live.promptEstimate
  match failure with
  | some s =>
    { received := []
      usage := some usage
      channel := (ch.send (.fail s.code s.message)).2
      ok := false }
  | none =>
    { received := []
      usage := some usage
      channel := if ctx.includeUsage then (ch.send (.usage usage)).2 else ch
      ok := true }

/-- The loop of `pump`. A token without payload is not sent. -/
def pumpRest (ctx : ResponseCtx) (live : Live) : List Token → Tally → Channel → Pumped
  | [], tally, ch => pumpEnd ctx live tally live.failure ch
  | t :: rest, tally, ch =>
    let tally := tally.observe t
    let hasPayload := !t.text.isEmpty || !t.toolCallsJson.isEmpty || !t.finish.isEmpty
    if !hasPayload then
      let p := pumpRest ctx live rest tally ch
      { p with received := t :: p.received }
    else
      match ch.send (.token t) with
      | (false, ch) => { pumpEnd ctx live tally none ch with received := [t] }
      | (true, ch) =>
        let p := pumpRest ctx live rest tally ch
        { p with received := t :: p.received }

/-- Forward tokens as they arrive, then usage. Without a client for the role chunk nothing is
    read beyond the first token, which is at hand, and nothing settled. -/
def pump (ctx : ResponseCtx) (live : Live) (ch : Channel) : Pumped :=
  if ctx.surface = .chat then
    match ch.send .role with
    | (false, ch) => { received := [live.first], usage := none, channel := ch, ok := true }
    | (true, ch) => pumpRest ctx live live.tokens .empty ch
  else pumpRest ctx live live.tokens .empty ch

/-- Serve an already buffered answer. -/
def emitGenerated (ctx : ResponseCtx) (g : Generated) (ch : Channel) : Channel :=
  let ch := if ctx.surface = .chat then (ch.send .role).2 else ch
  let ch := (ch.send (.text g.text)).2
  let ch := (ch.send (.finish g.finish)).2
  if ctx.includeUsage then (ch.send (.usage g.usage)).2 else ch

/-! ## The handler -/

/-- Record the tokens of a finished request in the ledger: the charges made. -/
def settle (ctx : ResponseCtx) (usage : Usage) (now : Nat) : List Charge :=
  ctx.caller.bill usage.promptTokens usage.completionTokens now

structure ServeCall where
  ctx : ResponseCtx
  cascade : Option Cascade
  stream : Bool
  /-- The carbon check refuses the request. -/
  carbonRejects : Bool

/-- What the outside does while a request is served. -/
structure Surroundings where
  /-- Opening the model of a step of the cascade, or number 0 the model of a plain request. -/
  opens : Nat → Opening
  /-- The awaits of the handler before the client leaves, if it does. -/
  waits : Option Nat
  /-- The events the client takes before it leaves, if it does. -/
  takes : Option Nat
  /-- When the request is settled. -/
  now : Nat

inductive Reply where
  | rejected
  | gone
  | error (e : Error)
  | streamed (channel : Channel) (ok : Bool)
  | buffered (g : Generated)

/-- What arrived for a request, the charges and the reply. -/
structure Served where
  awaits : List Await
  charges : List Charge
  reply : Reply

def Served.received (s : Served) : List Received :=
  receivedBy s.awaits

/-- The awaits of a handler that is dropped before it is through. -/
def Surroundings.cut (env : Surroundings) (awaits : List Await) : Option (List Await) :=
  match env.waits with
  | some n => if n < awaits.length then some (awaits.take n) else none
  | none => none

/-- A request that is not streamed drains its flow. -/
def ServeCall.drain (req : ServeCall) : Resolved → Run (Except Error Resolved)
  | .live live =>
    if req.stream then { awaits := [], result := .ok (.live live) }
    else { awaits := collectAwaits live, result := (collect live).map .done }
  | .done g => { awaits := [], result := .ok (.done g) }

/-- The cascade, or one flow. -/
def ServeCall.resolve (hash : List UInt8 → Digest) (req : ServeCall) (opens : Nat → Opening) :
    Run (Except Error Resolved) :=
  match req.cascade with
  | some casc => resolveCascade hash casc opens
  | none => resolvePlain hash opens

/-- The handler after it has resolved the request, up to its answer. -/
def ServeCall.finish (req : ServeCall) (r : Run (Except Error Resolved)) :
    Run (Except Error Resolved) :=
  match r.result with
  | .error e => { awaits := r.awaits, result := .error e }
  | .ok resolved => (req.drain resolved).after r.awaits

/-- The handler up to its answer, for a client that stays. -/
def ServeCall.handle (hash : List UInt8 → Digest) (req : ServeCall) (opens : Nat → Opening) :
    Run (Except Error Resolved) :=
  req.finish (req.resolve hash opens)

/-- Answer a request: `stream_response`, or the body of a buffered answer. What the pump reads
    after the first token arrives late. -/
def ServeCall.respond (req : ServeCall) (env : Surroundings) (awaits : List Await) :
    Resolved → Served
  | .live live =>
    let p := pump req.ctx live { takes := env.takes, events := [] }
    { awaits := awaits ++ p.received.tail.map .token
      charges := p.usage.elim [] (settle req.ctx · env.now)
      reply := .streamed p.channel p.ok }
  | .done g =>
    { awaits
      charges := settle req.ctx g.usage env.now
      reply :=
        if req.stream then
          .streamed (emitGenerated req.ctx g { takes := env.takes, events := [] }) true
        else .buffered g }

/-- What comes of a handler that is not dropped. -/
def ServeCall.answer (req : ServeCall) (env : Surroundings) (r : Run (Except Error Resolved)) :
    Served :=
  match r.result with
  | .error e => { awaits := r.awaits, charges := [], reply := .error e }
  | .ok resolved => req.respond env r.awaits resolved

/-- `serve`. -/
def serve (hash : List UInt8 → Digest) (req : ServeCall) (env : Surroundings) : Served :=
  if req.carbonRejects then { awaits := [], charges := [], reply := .rejected }
  else
    let r := req.handle hash env.opens
    match env.cut r.awaits with
    | some arrived => { awaits := arrived, charges := [], reply := .gone }
    | none => req.answer env r

/-! ## Streams that are not settled -/

/-- The streams of an attempt that its flow, if it has one, does not read: the prefill stream,
    and a decode stream without a first token. -/
def Tried.strays (promptEstimate : UInt32) (t : Tried Feed) : List Received :=
  (match t.dispatched.prefilled with
    | some item => [⟨promptEstimate, (FirstItem.item item).tokens⟩]
    | none => []) ++
    match t.first with
    | some (.retry _) | some (.fatal _) => [⟨promptEstimate, []⟩]
    | some (.got _) | none => []

/-- The streams an opening leaves behind; a silent peer is one. -/
def Opened.strays (promptEstimate : UInt32) (o : Opened Feed) : List Received :=
  o.attempts.flatMap (Tried.strays promptEstimate) ++
    match o.peer with
    | some peer => if peer.firstItem.tokens = [] then [⟨promptEstimate, []⟩] else []
    | none => []

def Opening.strays (hash : List UInt8 → Digest) (o : Opening) : List Received :=
  (o.opened hash).strays o.call.promptEstimate

/-- A flow as a stream of which everything is received. -/
def TokenFlow.whole (live : Live) : Received :=
  ⟨live.promptEstimate, live.tokens⟩

/-- The step completes and is confident enough. -/
def Cascade.accepts (casc : Cascade) (live : Live) : Bool :=
  let tally := live.tokens.foldl Tally.observe .empty
  let tokens := (tally.usage live.promptEstimate).completionTokens
  live.failure.isNone &&
    !casc.shouldEscalate tokens (tally.meanLogprob.getD (heuristicLogprob tokens))

/-- The last flow is lost to the ledger if it is buffered and fails, or if it is a streamed chat
    whose client takes no event. -/
def ServeCall.lastUnsettled (req : ServeCall) (env : Surroundings) (live : Live) :
    List Received :=
  if req.stream then
    if req.ctx.surface = .chat ∧ env.takes = some 0 then [⟨live.promptEstimate, [live.first]⟩]
    else []
  else
    match live.failure with
    | some _ => [live.whole]
    | none => []

/-- The streams of the steps from number `k` on that nobody settles. -/
def unsettledFrom (hash : List UInt8 → Digest) (accepts : Live → Bool)
    (last : Live → List Received) (opens : Nat → Opening) : List String → Nat → List Received
  | [], k =>
    (opens k).strays hash ++
      match ((opens k).run hash).result with
      | .error _ => []
      | .ok live => last live
  | _ :: early, k =>
    (opens k).strays hash ++
      match ((opens k).run hash).result with
      | .error _ => unsettledFrom hash accepts last opens early (k + 1)
      | .ok live =>
        if accepts live then []
        else live.whole :: unsettledFrom hash accepts last opens early (k + 1)

/-- The streams of a request that nobody settles. -/
def ServeCall.unsettled (hash : List UInt8 → Digest) (req : ServeCall) (env : Surroundings) :
    List Received :=
  if req.carbonRejects then []
  else
    match env.cut (req.handle hash env.opens).awaits with
    | some arrived => receivedBy arrived
    | none =>
      match req.cascade with
      | some casc =>
        unsettledFrom hash casc.accepts (req.lastUnsettled env) env.opens casc.steps.dropLast 0
      | none => unsettledFrom hash (fun _ => true) (req.lastUnsettled env) env.opens [] 0

/-! ## What an opening brings -/

@[simp] theorem totalOwed_append (l l' : List Received) :
    totalOwed (l ++ l') = totalOwed l + totalOwed l' := by
  simp [totalOwed]

theorem FirstItem.foldl_note_awaits (e : UInt32) (i : FirstItem) (rs : List Received) :
    (i.awaits e).foldl Await.note rs = ⟨e, i.tokens⟩ :: rs := by
  unfold awaits tokens
  split <;> rfl

theorem FirstItem.tokens_of_not_got (wait : String) {i : FirstItem}
    (h : ∀ t, firstToken wait i ≠ .got t) : i.tokens = [] := by
  unfold tokens
  split
  · exact absurd rfl (h _)
  · rfl

/-- The streams after an opening, the newest first: those it leaves behind, and the one its flow
    reads if there is a flow. -/
def Opened.Brings (e : UInt32) (o : Opened Feed) : Prop :=
  ∀ rs, (o.awaits e).foldl Await.note rs =
    match o.result with
    | .ok live => ⟨live.promptEstimate, [live.first]⟩ :: ((o.strays e).reverse ++ rs)
    | .error _ => (o.strays e).reverse ++ rs

namespace Opened

variable {e : UInt32}

theorem foldl_note_prefilled (e : UInt32) (d : Dispatched) (rs : List Received) :
    (match d.prefilled with
      | some item => (FirstItem.item item).awaits e
      | none => []).foldl Await.note rs =
    (match d.prefilled with
      | some item => [⟨e, (FirstItem.item item).tokens⟩]
      | none => [] : List Received) ++ rs := by
  cases d.prefilled with
  | none => rfl
  | some item => exact FirstItem.foldl_note_awaits e _ rs

/-- An attempt without a first token in front. -/
theorem Brings.after {o : Opened Feed} (h : o.Brings e) {t : Tried Feed}
    (hfirst : t.first = none ∨ ∃ wait, t.first = some (firstToken wait t.moment.stream.firstItem) ∧
      ∀ tok, firstToken wait t.moment.stream.firstItem ≠ .got tok) :
    (Opened.after t o).Brings e := by
  intro rs
  have ht : (t.awaits e).foldl Await.note rs = (t.strays e).reverse ++ rs := by
    unfold Tried.awaits Tried.strays
    rw [List.foldl_append, foldl_note_prefilled]
    rcases hfirst with hfirst | ⟨wait, hfirst, hgot⟩
    · rw [hfirst]
      cases t.dispatched.prefilled <;> simp
    · rw [hfirst]
      dsimp only
      rw [FirstItem.foldl_note_awaits, FirstItem.tokens_of_not_got wait hgot]
      cases hf : firstToken wait t.moment.stream.firstItem with
      | got tok => exact absurd hf (hgot tok)
      | retry e => cases t.dispatched.prefilled <;> simp
      | fatal e => cases t.dispatched.prefilled <;> simp
  have hawaits : (Opened.after t o).awaits e = t.awaits e ++ o.awaits e := by
    simp [Opened.awaits, Opened.after]
  have hstrays : (Opened.after t o).strays e = t.strays e ++ o.strays e := by
    simp [Opened.strays, Opened.after]
  rw [hawaits, hstrays, List.foldl_append, ht, h]
  simp [Opened.after]

end Opened

theorem collectRest_eq (live : Live) (rest : List Token) (tally : Tally) (out : Generated) :
    collectRest live rest tally out =
      match live.failure with
      | some s => .error (.internal ("stream: " ++ s.shown))
      | none =>
        .ok
          { rest.foldl Generated.push out with
            usage := (rest.foldl Tally.observe tally).usage live.promptEstimate
            meanLogprob := (rest.foldl Tally.observe tally).meanLogprob } := by
  induction rest generalizing tally out with
  | nil => rfl
  | cons t rest ih => exact ih (tally.observe t) (out.push t)

/-- The streams a run has brought, beyond the older ones and the unsettled ones, are the flow it
    ends with or the answer it has. -/
def Run.Accounts (last : Live → List Received) (unsettled : List Received)
    (r : Run (Except Error Resolved)) : Prop :=
  ∀ rs, match r.result with
    | .error _ =>
      totalOwed (r.awaits.foldl Await.note rs) = totalOwed rs + totalOwed unsettled
    | .ok (.done g) =>
      totalOwed (r.awaits.foldl Await.note rs) =
        g.usage.tokens + (totalOwed rs + totalOwed unsettled)
    | .ok (.live live) =>
      ∃ older, r.awaits.foldl Await.note rs = ⟨live.promptEstimate, [live.first]⟩ :: older ∧
        totalOwed older + totalOwed (last live) = totalOwed rs + totalOwed unsettled

namespace Run.Accounts

variable {last : Live → List Received} {unsettled : List Received}
  {r : Run (Except Error Resolved)}

/-- After awaits that bring the streams `ls`, none of which is settled. -/
theorem after (h : r.Accounts last unsettled) {awaits : List Await} {ls : List Received}
    (hawaits : ∀ rs, totalOwed (awaits.foldl Await.note rs) = totalOwed rs + totalOwed ls) :
    (r.after awaits).Accounts last (ls ++ unsettled) := by
  intro rs
  have hr := h (awaits.foldl Await.note rs)
  have hrs := hawaits rs
  unfold Run.after
  dsimp only
  rw [List.foldl_append, totalOwed_append]
  cases hresult : r.result with
  | error e =>
    rw [hresult] at hr
    dsimp only at hr ⊢
    omega
  | ok resolved =>
    rw [hresult] at hr
    cases resolved with
    | done g =>
      dsimp only at hr ⊢
      omega
    | live live =>
      obtain ⟨older, hfold, hsum⟩ := hr
      exact ⟨older, hfold, by omega⟩

end Run.Accounts

end Cognitora.Router
