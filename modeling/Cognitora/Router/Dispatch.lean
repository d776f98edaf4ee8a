/-
  Sending a request to nodes (cgn-router `src/gateway/generate.rs`, `src/routing/grpc.rs`,
  `src/disagg.rs`, `src/deadline.rs`).

  `dispatchOnce` is one attempt of the HTTP gateway: plan, pick, check the deadline, prefill if
  the pair is two nodes, call the decode node, announce its prefix claims. `openFlow` tries up
  to three attempts and waits for the first token of each; a node that fails is excluded from
  the next. `forward` is the one attempt of the gRPC surface.

  What the outside does is an input: the state each attempt finds (`Moment.state`; other tasks
  may change it between attempts), whether calls succeed and what the token streams yield. The
  loop is the same for every type of streams that has a first item (`TokenSource`). The results
  list what was sent to whom and which nodes were announced, in order.
  Token counts are cast to `u32` as the source does. Admission, the request's text and its
  tokenizer are not part of the model: a request arrives with its token ids.
-/
import Cognitora.Router.Selector
import Mathlib.Algebra.Ring.Nat

namespace Cognitora.Router

open Cognitora.Lib Cognitora.Core

/-! ## Plan -/

/-- Phase plan for a single request. -/
inductive Plan where
  | colocate
  | split (prefillRole decodeRole : NodeRole)
  deriving DecidableEq

/-- Decide whether to disaggregate based on prompt length and config. -/
def plan (enabled : Bool) (colocateBelowTokens promptTokens : UInt32) : Plan :=
  if !enabled || decide (promptTokens < colocateBelowTokens) then .colocate
  else .split .prefill .decode

section

variable (hash : List UInt8 → Digest)

/-- Plan and pick: the prefill and the decode node of an attempt. -/
def routeOnce (σ : SharedState) (key : RouteKey) (exclude : List String) :
    Except Error (RoutingDecision × RoutingDecision) :=
  match plan σ.disagg.enabled σ.disagg.colocateBelowTokens (UInt32.ofNat key.tokenIds.length) with
  | .colocate =>
    match pickExcluding hash σ key .both exclude with
    | .error e => .error e
    | .ok d => .ok (d, d)
  | .split prefillRole decodeRole => pickPair hash σ key prefillRole decodeRole exclude

end

/-! ## Deadline -/

structure DeadlineConfig where
  deadlineAdmission : Bool
  ttftSloMs : Nat
  maxConcurrentPerReplica : Nat

/-- What the dispatcher reads of a `GenerateRequest`. -/
structure GenerateRequest where
  deadlineMs : Nat
  /-- `params.max_tokens`, if there are sampling parameters. -/
  maxTokens : Option Nat

/-- `u32::MAX`. -/
def u32Max : Nat :=
  2 ^ 32 - 1

inductive AdmissionOutcome where
  | accept
  | deadlineExceeded (estimatedMs requestedMs : Nat)
  | queueFull
  deriving DecidableEq

/-- An overflowing sum of the SLO and the token time wraps. -/
def effectiveDeadlineMs (cfg : DeadlineConfig) (req : GenerateRequest) : Nat :=
  if req.deadlineMs > 0 then req.deadlineMs
  else (min cfg.ttftSloMs u32Max + min (req.maxTokens.getD 256 * 30) u32Max) % 2 ^ 32

def estimateTtftMs (cfg : DeadlineConfig) (queueDepth : Nat) : Nat :=
  min (max queueDepth 1 * 100) u32Max / max cfg.maxConcurrentPerReplica 1

def checkDeadline (cfg : DeadlineConfig) (req : GenerateRequest) (queueDepth : Nat) :
    AdmissionOutcome :=
  if !cfg.deadlineAdmission then .accept
  else
    let requestedMs := effectiveDeadlineMs cfg req
    let estimatedMs := estimateTtftMs cfg queueDepth
    if estimatedMs > requestedMs then .deadlineExceeded estimatedMs requestedMs else .accept

/-! ## One attempt -/

/-- Status codes of a token stream. -/
inductive Code where
  | ok
  | cancelled
  | unknown
  | invalidArgument
  | deadlineExceeded
  | notFound
  | alreadyExists
  | permissionDenied
  | resourceExhausted
  | failedPrecondition
  | aborted
  | outOfRange
  | unimplemented
  | internal
  | unavailable
  | dataLoss
  | unauthenticated
  deriving DecidableEq

structure Token where
  text : String
  finish : String
  toolCallsJson : String
  logprobsJson : String
  logprob : Float32
  promptTokens : UInt32
  completionTokens : UInt32

/-- The status of a failed stream, with its `Display` text. -/
structure Status where
  code : Code
  message : String
  shown : String

/-- What one `next` on a token stream yields; `none` once it has ended. -/
abbrev StreamItem : Type := Option (Except Status Token)

/-- How far the prefill call gets. -/
inductive PrefillCall where
  | connectFailed
  | callFailed
  /-- The agent takes the call, and its stream yields the item first. -/
  | answered (item : StreamItem)

/-- What the outside does during an attempt until the decode node has its call. -/
structure Outcomes where
  prefill : PrefillCall
  /-- The error of connecting to the decode node. -/
  connect : Option Error
  /-- The status of a refused `Generate` call. -/
  call : Option String

/-- An `AgentGenerateRequest` and the node it goes to. -/
structure AgentRequest where
  node : NodeEntry
  prefillOnly : Bool
  decodeOnly : Bool
  blocks : List (List UInt8)
  digests : List Digest

/-- An `insert_many` call on the prefix index. -/
structure Announcement where
  digests : List Digest
  nodeId : String

/-- What an attempt did; a failure names the node to exclude, if routing found one. -/
structure Dispatched where
  /-- The prefill and the decode node the routing step chose. -/
  picked : Option (RoutingDecision × RoutingDecision)
  sent : List AgentRequest
  /-- What was read of the prefill stream, if one was opened. -/
  prefilled : Option StreamItem
  claims : List Announcement
  result : Except (Option String × Error) (String × String)

/-- What calling the prefill node did. -/
structure PrefillRun where
  sent : List AgentRequest
  item : Option StreamItem
  blocks : Option (List (List UInt8))

/-- No prefill call is made when one node does both. -/
def PrefillRun.skipped : PrefillRun where
  sent := []
  item := none
  blocks := none

/-- Call the prefill node. One item of its stream is awaited and ignored, also if it is an
    error, and the returned block list is always empty. -/
def runPrefill (node : NodeEntry) (call : PrefillCall) : PrefillRun :=
  let request : AgentRequest :=
    { node, prefillOnly := true, decodeOnly := false, blocks := [], digests := [] }
  match call with
  | .connectFailed => .skipped
  | .callFailed => { sent := [request], item := none, blocks := none }
  | .answered item => { sent := [request], item := some item, blocks := some [] }

section

variable (hash : List UInt8 → Digest) (limits : DeadlineConfig) (σ : SharedState)
  (req : GenerateRequest)

/-- An attempt once the two nodes are known and the deadline allows it. -/
def callNodes (prefill decode : RoutingDecision) (env : Outcomes) : Dispatched :=
  let distinct := prefill.node.nodeId != decode.node.nodeId
  let pre := if distinct then runPrefill prefill.node env.prefill else .skipped
  let prefillBlocks := pre.blocks.getD []
  match env.connect with
  | some e =>
    { picked := some (prefill, decode)
      sent := pre.sent
      prefilled := pre.item
      claims := []
      result := .error (some decode.node.nodeId, e) }
  | none =>
    let request : AgentRequest :=
      { node := decode.node
        prefillOnly := false
        decodeOnly := !prefillBlocks.isEmpty
        blocks := prefillBlocks
        digests := decode.digests }
    match env.call with
    | some s =>
      { picked := some (prefill, decode)
        sent := pre.sent ++ [request]
        prefilled := pre.item
        claims := []
        result := .error (some decode.node.nodeId, .internal ("agent generate: " ++ s)) }
    | none =>
      { picked := some (prefill, decode)
        sent := pre.sent ++ [request]
        prefilled := pre.item
        claims := ⟨decode.digests, decode.node.nodeId⟩ ::
          if distinct then [⟨prefill.digests, prefill.node.nodeId⟩] else []
        result := .ok (decode.node.nodeId, (σ.reports decode.node.nodeId).address) }

/-- An attempt that ends before any call. -/
def Dispatched.unsent (picked : Option (RoutingDecision × RoutingDecision))
    (node : Option String) (e : Error) : Dispatched where
  picked := picked
  sent := []
  prefilled := none
  claims := []
  result := .error (node, e)

/-- One attempt: plan, pick, prefill if split, then decode. -/
def dispatchOnce (key : RouteKey) (exclude : List String) (env : Outcomes) : Dispatched :=
  match routeOnce hash σ key exclude with
  | .error e => .unsent none none e
  | .ok (prefill, decode) =>
    match checkDeadline limits req (σ.reports decode.node.nodeId).queueDepth.toNat with
    | .deadlineExceeded _ _ =>
      .unsent (some (prefill, decode)) (some decode.node.nodeId)
        (.unavailable "deadline exceeded given current queue depth")
    | .queueFull =>
      .unsent (some (prefill, decode)) (some decode.node.nodeId)
        (.unavailable "admission queue full")
    | .accept => callNodes σ prefill decode env

/-- The gRPC surface: one pick, for the prefill role if the prompt would be split. -/
def forward (key : RouteKey) (env : Outcomes) : Dispatched :=
  let role : NodeRole :=
    if σ.disagg.enabled &&
        decide (UInt32.ofNat key.tokenIds.length ≥ σ.disagg.colocateBelowTokens) then .prefill
    else .both
  match pick hash σ key role with
  | .error e => .unsent none none e
  | .ok decision =>
    match env.connect with
    | some e => .unsent (some (decision, decision)) (some decision.node.nodeId) e
    | none =>
      let request : AgentRequest :=
        { node := decision.node
          prefillOnly := false
          decodeOnly := false
          blocks := []
          digests := decision.digests }
      match env.call with
      | some s =>
        { picked := some (decision, decision)
          sent := [request]
          prefilled := none
          claims := []
          result := .error (some decision.node.nodeId, .internal ("agent generate: " ++ s)) }
      | none =>
        { picked := some (decision, decision)
          sent := [request]
          prefilled := none
          claims := [⟨decision.digests, decision.node.nodeId⟩]
          result := .ok (decision.node.nodeId, (σ.reports decision.node.nodeId).address) }

end

/-! ## What an attempt did -/

section

variable {hash : List UInt8 → Digest} {limits : DeadlineConfig} {σ : SharedState}
  {req : GenerateRequest} {key : RouteKey} {exclude : List String}

/-- Both nodes of a routing step are not excluded, and both carry the request's digests. -/
theorem routeOnce_ok {p d : RoutingDecision} (h : routeOnce hash σ key exclude = .ok (p, d)) :
    p.node.nodeId ∉ exclude ∧ d.node.nodeId ∉ exclude ∧
      p.digests = hashSeqChunks hash key.salt key.tokenIds ∧
        d.digests = hashSeqChunks hash key.salt key.tokenIds := by
  have hpicked : ∀ {role e}, pickExcluding hash σ key role exclude = .ok e →
      e.node.nodeId ∉ exclude ∧ e.digests = hashSeqChunks hash key.salt key.tokenIds := by
    intro role e he
    obtain ⟨hmem, hdigests⟩ := pickExcluding_ok he
    exact ⟨(SharedState.mem_candidates.mp (mem_of_mem_retainIfAny hmem)).2.1, hdigests⟩
  unfold routeOnce at h
  split at h
  · split at h
    · cases h
    · next d' hpick =>
      cases h
      obtain ⟨hex, hdigests⟩ := hpicked hpick
      exact ⟨hex, hex, hdigests, hdigests⟩
  · obtain ⟨hpick, hdd, hor⟩ := pickPair_ok h
    obtain ⟨hex, hdigests⟩ := hpicked hpick
    refine ⟨hex, ?_, hdigests, hdd.trans hdigests⟩
    rcases hor with ⟨_, heq⟩ | hmem
    · rw [heq]
      exact hex
    · exact (SharedState.mem_distinct.mp (mem_of_mem_retainIfAny hmem)).2.2

/-- The nodes announced once the decode call is accepted. -/
def announced (digests : List Digest) (prefillId decodeId : String) : List Announcement :=
  ⟨digests, decodeId⟩ :: if prefillId != decodeId then [⟨digests, prefillId⟩] else []

theorem mem_announced {digests : List Digest} {prefillId decodeId : String} {a : Announcement} :
    a ∈ announced digests prefillId decodeId ↔
      a.digests = digests ∧
        (a.nodeId = decodeId ∨ a.nodeId = prefillId ∧ prefillId ≠ decodeId) := by
  obtain ⟨ds, n⟩ := a
  unfold announced
  by_cases h : prefillId = decodeId
  · simp [h]
  · simp [h, and_or_left]

theorem digests_of_mem_announced {digests : List Digest} {prefillId decodeId : String}
    {a : Announcement} (h : a ∈ announced digests prefillId decodeId) : a.digests = digests :=
  (mem_announced.mp h).1

/-- An attempt finds no node, or fails on its decode node without a claim, or has its call
    accepted and announces both nodes. -/
theorem dispatchOnce_cases (hash : List UInt8 → Digest) (limits : DeadlineConfig)
    (σ : SharedState) (req : GenerateRequest) (key : RouteKey) (exclude : List String)
    (env : Outcomes) :
    (∃ e, dispatchOnce hash limits σ req key exclude env =
      .unsent none none e) ∨
    ∃ p d, routeOnce hash σ key exclude = .ok (p, d) ∧
      (dispatchOnce hash limits σ req key exclude env).picked = some (p, d) ∧
      ((∃ e, (dispatchOnce hash limits σ req key exclude env).result =
          .error (some d.node.nodeId, e) ∧
          (dispatchOnce hash limits σ req key exclude env).claims = []) ∨
        (dispatchOnce hash limits σ req key exclude env).result =
            .ok (d.node.nodeId, (σ.reports d.node.nodeId).address) ∧
          (dispatchOnce hash limits σ req key exclude env).claims =
            announced (hashSeqChunks hash key.salt key.tokenIds) p.node.nodeId d.node.nodeId) := by
  unfold dispatchOnce
  cases hroute : routeOnce hash σ key exclude with
  | error e => exact Or.inl ⟨e, rfl⟩
  | ok pd =>
    obtain ⟨p, d⟩ := pd
    obtain ⟨_, _, hpd, hdd⟩ := routeOnce_ok hroute
    refine Or.inr ⟨p, d, rfl, ?_⟩
    dsimp only
    split
    · exact ⟨rfl, Or.inl ⟨_, rfl, rfl⟩⟩
    · exact ⟨rfl, Or.inl ⟨_, rfl, rfl⟩⟩
    · unfold callNodes announced
      rw [hpd, hdd]
      cases env.connect with
      | some e => exact ⟨rfl, Or.inl ⟨e, rfl, rfl⟩⟩
      | none =>
        cases env.call with
        | some s => exact ⟨rfl, Or.inl ⟨_, rfl, rfl⟩⟩
        | none => exact ⟨rfl, Or.inr ⟨rfl, rfl⟩⟩

end

/-! ## Attempts until a first token -/

/-- What the wait for the first token sees. -/
inductive FirstItem where
  | timeout
  | item (i : StreamItem)

inductive FirstToken where
  | got (t : Token)
  | retry (e : Error)
  | fatal (e : Error)

/-- Status codes that blame the caller. -/
def Code.isCallersFault : Code → Bool
  | .invalidArgument | .notFound | .permissionDenied | .unauthenticated | .failedPrecondition
  | .outOfRange => true
  | _ => false

/-- What the first item means; `wait` is the `Debug` text of the timeout. -/
def firstToken (wait : String) : FirstItem → FirstToken
  | .timeout => .retry (.unavailable ("no token within " ++ wait))
  | .item none => .retry (.internal "engine stream ended before the first token")
  | .item (some (.ok t)) => .got t
  | .item (some (.error s)) =>
    if s.code.isCallersFault then .fatal (.invalidArgument s.message)
    else .retry (.internal s.message)

/-- Only an item that is a token is got. -/
theorem firstToken_got {wait : String} {i : FirstItem} {t : Token}
    (h : firstToken wait i = .got t) : i = .item (some (.ok t)) := by
  unfold firstToken at h
  split at h
  · cases h
  · cases h
  · cases h
    rfl
  · split at h <;> cases h

def retryable : Error → Bool
  | .unavailable _ | .internal _ => true
  | _ => false

def isUnavailable : Error → Bool
  | .unavailable _ => true
  | _ => false

/-- Maximum dispatch attempts per request. -/
def maxDispatchAttempts : Nat :=
  3

/-- Token streams, by what the wait for the first token sees and by what is left after it. -/
class TokenSource (S : Type) where
  firstItem : S → FirstItem
  rest : S → S

/-- A stream that yields tokens and then ends or fails. -/
structure Feed where
  /-- The wait for the first item times out. -/
  late : Bool
  tokens : List Token
  failure : Option Status

def Feed.firstItem (f : Feed) : FirstItem :=
  if f.late then .timeout
  else
    match f.tokens with
    | t :: _ => .item (some (.ok t))
    | [] => .item (f.failure.map .error)

instance : TokenSource Feed where
  firstItem := Feed.firstItem
  rest f := { f with tokens := f.tokens.tail }

/-- An admitted request with its first token in hand. -/
structure TokenFlow (S : Type) where
  first : Token
  rest : S
  promptEstimate : UInt32
  /-- The node whose in-flight count the flow holds; none for a federation peer. -/
  node : Option String

/-- What an attempt finds, what the outside does during it, and the stream of its decode node
    if that one takes the call. -/
structure Moment (S : Type) where
  state : SharedState
  outcomes : Outcomes
  stream : S

/-- One attempt of `open`, with the outcome of the wait if a stream was opened. -/
structure Tried (S : Type) where
  moment : Moment S
  dispatched : Dispatched
  first : Option FirstToken

/-- How `open` ends, after which attempts. -/
structure Opened (S : Type) where
  attempts : List (Tried S)
  /-- The stream of a federation peer, if one was asked and answered. -/
  peer : Option S
  result : Except Error (TokenFlow S)

namespace Opened

variable {S : Type}

/-- The attempt `t`, then the rest. -/
def after (t : Tried S) (rest : Opened S) : Opened S :=
  { rest with attempts := t :: rest.attempts }

/-- An ending without another attempt. -/
def ending (result : Except Error (TokenFlow S)) : Opened S where
  attempts := []
  peer := none
  result := result

end Opened

/-- What `open` runs with. -/
structure OpenCall (S : Type) where
  limits : DeadlineConfig
  wait : String
  req : GenerateRequest
  key : RouteKey
  /-- Federation is on and has peers; what forwarding to one yields. -/
  federation : Option (Except Error S)

namespace OpenCall

variable {S : Type} [TokenSource S] (hash : List UInt8 → Digest) (c : OpenCall S)

def promptEstimate : UInt32 :=
  UInt32.ofNat c.key.tokenIds.length

/-- The flow that has taken its first token from a stream. -/
def flow (first : Token) (stream : S) (node : Option String) : TokenFlow S where
  first := first
  rest := TokenSource.rest stream
  promptEstimate := c.promptEstimate
  node := node

/-- No local node is left: a peer cluster, or the error that matters most. -/
def federate (lastErr : Option Error) (e : Error) : Opened S :=
  match c.federation with
  | some (.ok peer) =>
    { attempts := []
      peer := some peer
      result := match firstToken c.wait (TokenSource.firstItem peer) with
        | .got t => .ok (c.flow t peer none)
        | _ => .error (lastErr.getD e) }
  | _ => .ending (.error (lastErr.getD e))

theorem federate_attempts (lastErr : Option Error) (e : Error) :
    (c.federate lastErr e).attempts = [] := by
  unfold federate
  split <;> rfl

/-- The attempts from number `k` on, at most `n` of them. -/
def attemptsFrom (moments : Nat → Moment S) :
    Nat → Nat → List String → Option Error → Opened S
  | 0, _, _, lastErr => .ending (.error (lastErr.getD (.unavailable "dispatch exhausted")))
  | n + 1, k, exclude, lastErr =>
    let m := moments k
    let d := dispatchOnce hash c.limits m.state c.req c.key exclude m.outcomes
    match d.result with
    | .ok (nodeId, _) =>
      let first := firstToken c.wait (TokenSource.firstItem m.stream)
      .after ⟨m, d, some first⟩ <| match first with
        | .got t => .ending (.ok (c.flow t m.stream (some nodeId)))
        | .fatal e => .ending (.error e)
        | .retry e => attemptsFrom moments n (k + 1) (exclude ++ [nodeId]) (some e)
    | .error (none, e) =>
      .after ⟨m, d, none⟩ <| if isUnavailable e then c.federate lastErr e else .ending (.error e)
    | .error (some node, e) =>
      .after ⟨m, d, none⟩ <|
        if retryable e then attemptsFrom moments n (k + 1) (exclude ++ [node]) (some e)
        else .ending (.error e)

/-- `generate::open` once the request is admitted. -/
def openFlow (moments : Nat → Moment S) : Opened S :=
  c.attemptsFrom hash moments maxDispatchAttempts 0 [] none

end OpenCall

end Cognitora.Router
