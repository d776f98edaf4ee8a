/-
  The two renderings of a chat answer (cgn-router `src/gateway/generate.rs` `collect`, `pump`,
  `emit_generated`, `ToolCallAggregator`, `src/gateway/chat.rs` `buffered_response`).

  The tokens of one stream are answered as one body, drained by `collect`, or as SSE chunks:
  by `pump` as they arrive, or by `emit_generated` when they are a cascade step that was
  buffered and accepted. A client that reads the chunks joins the texts, merges the tool call
  deltas and joins the logprobs. `stream_agrees_iff`: what it gets is the body, for pumped
  tokens exactly if no token that `pump` skips reports logprobs, and for an accepted step
  exactly if no token has tool calls or logprobs: `emit_generated` leaves both out.

  `Router/Serve` has the loops and the channel; here its events get their JSON and the answer
  its tool calls and logprobs. `serde_json::from_str` is a parameter. The id, model, object
  and creation time of a response are the same in both and left out.
-/
import Mathlib.Data.List.Flatten
import Cognitora.Core.Json
import Cognitora.Router.Serve

namespace Cognitora.Router

open Cognitora.Core

/-! ## Tool calls -/

/-- The slot of a call, as `ToolCallAggregator` fills it. -/
structure ToolCall where
  id : String
  type : String
  name : String
  arguments : String

namespace ToolCall

def empty : ToolCall where
  id := ""
  type := "function"
  name := ""
  arguments := ""

/-- One fragment: strings overwrite the slot, the arguments are appended. -/
def merge (call : ToolCall) (e : Json) : ToolCall where
  id := ((e.get "id").bind Json.asStr).getD call.id
  type := ((e.get "type").bind Json.asStr).getD call.type
  name := (((e.get "function").bind (·.get "name")).bind Json.asStr).getD call.name
  arguments :=
    call.arguments ++ (((e.get "function").bind (·.get "arguments")).bind Json.asStr).getD ""

def toJson (call : ToolCall) : Json :=
  .obj
    [ ("id", .str call.id)
    , ("type", .str call.type)
    , ("function", .obj [("name", .str call.name), ("arguments", .str call.arguments)]) ]

end ToolCall

/-- Merge a fragment into the slot of its index, in a list sorted by index. -/
def mergeAt (idx : UInt64) (e : Json) : List (UInt64 × ToolCall) → List (UInt64 × ToolCall)
  | [] => [(idx, ToolCall.empty.merge e)]
  | (k, call) :: rest =>
    if idx < k then (idx, ToolCall.empty.merge e) :: (k, call) :: rest
    else if idx = k then (k, call.merge e) :: rest
    else (k, call) :: mergeAt idx e rest

theorem mergeAt_ne_nil (idx : UInt64) (e : Json) (calls : List (UInt64 × ToolCall)) :
    mergeAt idx e calls ≠ [] := by
  fun_cases mergeAt idx e calls <;> exact List.cons_ne_nil _ _

/-- The indices are those of before and the fragment's. -/
theorem index_mem_mergeAt {idx : UInt64} {e : Json} {calls : List (UInt64 × ToolCall)}
    {slot : UInt64 × ToolCall} (h : slot ∈ mergeAt idx e calls) :
    slot.1 = idx ∨ ∃ old ∈ calls, slot.1 = old.1 := by
  fun_induction mergeAt idx e calls with
  | case1 =>
    rcases List.mem_singleton.mp h with rfl
    exact Or.inl rfl
  | case2 k call rest hlt =>
    rcases List.mem_cons.mp h with rfl | hold
    · exact Or.inl rfl
    · exact Or.inr ⟨slot, hold, rfl⟩
  | case3 call rest hge =>
    rcases List.mem_cons.mp h with rfl | hold
    · exact Or.inl rfl
    · exact Or.inr ⟨slot, List.mem_cons_of_mem _ hold, rfl⟩
  | case4 k call rest hge hne ih =>
    rcases List.mem_cons.mp h with rfl | hold
    · exact Or.inr ⟨_, List.mem_cons_self, rfl⟩
    · rcases ih hold with hidx | ⟨old, hmem, hkey⟩
      · exact Or.inl hidx
      · exact Or.inr ⟨old, List.mem_cons_of_mem _ hmem, hkey⟩

theorem mergeAt_sorted (idx : UInt64) (e : Json) {calls : List (UInt64 × ToolCall)}
    (h : calls.Pairwise (·.1 < ·.1)) : (mergeAt idx e calls).Pairwise (·.1 < ·.1) := by
  fun_induction mergeAt idx e calls with
  | case1 => exact List.pairwise_singleton _ _
  | case2 k call rest hlt =>
    refine List.pairwise_cons.mpr ⟨fun slot hslot => ?_, h⟩
    rcases List.mem_cons.mp hslot with rfl | hrest
    · exact hlt
    · exact UInt64.lt_trans hlt ((List.pairwise_cons.mp h).1 slot hrest)
  | case3 call rest hge => exact List.pairwise_cons.mpr (List.pairwise_cons.mp h)
  | case4 k call rest hge hne ih =>
    obtain ⟨hhead, hrest⟩ := List.pairwise_cons.mp h
    refine List.pairwise_cons.mpr ⟨fun slot hslot => ?_, ih hrest⟩
    rcases index_mem_mergeAt hslot with hidx | ⟨old, hold, hkey⟩
    · rw [hidx]
      exact UInt64.lt_of_le_of_ne (UInt64.not_lt.mp hge) (Ne.symm hne)
    · rw [hkey]
      exact hhead old hold

/-- Merges streaming tool call fragments, keyed by each fragment's index. -/
structure ToolCallAggregator where
  calls : List (UInt64 × ToolCall)
  sorted : calls.Pairwise (·.1 < ·.1)

namespace ToolCallAggregator

def empty : ToolCallAggregator where
  calls := []
  sorted := List.Pairwise.nil

def merge (agg : ToolCallAggregator) (e : Json) : ToolCallAggregator :=
  let idx := ((e.get "index").bind Json.asU64).getD 0
  { calls := mergeAt idx e agg.calls, sorted := mergeAt_sorted idx e agg.sorted }

def push (agg : ToolCallAggregator) (delta : Json) : ToolCallAggregator :=
  match delta.asArray with
  | none => agg
  | some entries => entries.foldl merge agg

def finish (agg : ToolCallAggregator) : Option Json :=
  if agg.calls.isEmpty then none else some (.arr (agg.calls.map (·.2.toJson)))

theorem push_eq (agg : ToolCallAggregator) (delta : Json) :
    agg.push delta = (delta.asArray.getD []).foldl merge agg := by
  rw [push]
  cases delta.asArray with
  | none => rfl
  | some entries => rfl

/-- There are no calls exactly if no fragment was merged. -/
theorem finish_foldl_eq_none_iff (entries : List Json) :
    (entries.foldl merge empty).finish = none ↔ entries = [] := by
  rcases List.eq_nil_or_concat entries with rfl | ⟨init, e, rfl⟩
  · exact ⟨fun _ => rfl, fun _ => rfl⟩
  · have hcalls : ((init ++ [e]).foldl merge empty).calls ≠ [] := by
      rw [List.foldl_concat]
      exact mergeAt_ne_nil _ _ _
    rw [finish, if_neg (by simpa using hcalls)]
    simp

end ToolCallAggregator

/-! ## Reading the JSON of tokens -/

/-- `serde_json::from_str` to a value. -/
structure JsonReader where
  fromStr : String → Option Json
  /-- An empty text is not JSON. -/
  fromStr_empty : fromStr "" = none

/-- The array under `content`, if the logprobs are such an object. -/
def logprobItems (v : Json) : List Json :=
  ((v.get "content").bind Json.asArray).getD []

namespace JsonReader

variable (r : JsonReader)

/-- The tool call fragments a token brings. -/
def toolEntries (t : Token) : List Json :=
  ((r.fromStr t.toolCallsJson).bind Json.asArray).getD []

/-- The logprobs a token reports. -/
def logprobsOf (t : Token) : List Json :=
  ((r.fromStr t.logprobsJson).map logprobItems).getD []

theorem toolEntries_of_empty {t : Token} (h : t.toolCallsJson = "") : r.toolEntries t = [] := by
  rw [toolEntries, h, r.fromStr_empty]
  rfl

theorem logprobsOf_of_empty {t : Token} (h : t.logprobsJson = "") : r.logprobsOf t = [] := by
  rw [logprobsOf, h, r.fromStr_empty]
  rfl

end JsonReader

/-! ## The buffered answer -/

/-- `Generated` with the fields that are JSON. -/
structure ChatGenerated extends Generated where
  toolCalls : Option Json
  logprobs : Option Json

/-- The variables of the loop of `collect`. -/
structure CollectLoop where
  out : Generated
  tally : Tally
  tools : ToolCallAggregator
  logprobs : List Json

namespace CollectLoop

def start : CollectLoop where
  out := .empty
  tally := .empty
  tools := .empty
  logprobs := []

def step (r : JsonReader) (s : CollectLoop) (t : Token) : CollectLoop where
  out := s.out.push t
  tally := s.tally.observe t
  tools :=
    if !t.toolCallsJson.isEmpty then
      match r.fromStr t.toolCallsJson with
      | some v => s.tools.push v
      | none => s.tools
    else s.tools
  logprobs :=
    if !t.logprobsJson.isEmpty then
      match r.fromStr t.logprobsJson with
      | some v => s.logprobs ++ logprobItems v
      | none => s.logprobs
    else s.logprobs

def run (r : JsonReader) (tokens : List Token) : CollectLoop :=
  tokens.foldl (step r) start

end CollectLoop

/-- `collect` of a stream that does not fail. -/
def collectChat (r : JsonReader) (live : Live) : ChatGenerated :=
  let s := CollectLoop.run r live.tokens
  { s.out with
    usage := s.tally.usage live.promptEstimate
    meanLogprob := s.tally.meanLogprob
    toolCalls := s.tools.finish
    logprobs := if !s.logprobs.isEmpty then some (.obj [("content", .arr s.logprobs)]) else none }

/-- `ChatResponse` with its only choice. -/
structure ChatResponse where
  content : String
  toolCalls : Option Json
  finishReason : String
  logprobs : Option Json
  usage : Usage

def bufferedResponse (g : ChatGenerated) : ChatResponse where
  content := g.text
  toolCalls := g.toolCalls
  finishReason := g.finish
  logprobs := g.logprobs
  usage := g.usage

/-! ## The chunks -/

structure ChatDelta where
  role : Option String
  content : Option String
  toolCalls : Option Json

structure ChatChunkChoice where
  delta : ChatDelta
  finishReason : Option String
  logprobs : Option Json

structure ChatChunk where
  choices : List ChatChunkChoice
  usage : Option Usage

/-- `ResponseCtx::chunk` on the chat surface. -/
def chatChunk (role text : Option String) (toolCalls : Option Json) (finish : Option String)
    (logprobs : Option Json) : ChatChunk where
  choices :=
    [{ delta := { role, content := text, toolCalls }, finishReason := finish, logprobs }]
  usage := none

/-- The text, unless it is empty. -/
def nonEmpty (s : String) : Option String :=
  if !s.isEmpty then some s else none

/-- The chunk `pump` sends for a token. -/
def tokenChunk (r : JsonReader) (t : Token) : ChatChunk :=
  chatChunk none (nonEmpty t.text) (r.fromStr t.toolCallsJson) (nonEmpty t.finish)
    (r.fromStr t.logprobsJson)

/-- The chunk of a data event on the chat surface; a failure is no data. -/
def SseEvent.chunk (r : JsonReader) : SseEvent → Option ChatChunk
  | .role => some (chatChunk (some "assistant") none none none none)
  | .token t => some (tokenChunk r t)
  | .text s => some (chatChunk none (some s) none none none)
  | .finish s => some (chatChunk none none none (some s) none)
  | .usage u => some { choices := [], usage := some u }
  | .fail _ _ => none

/-- The data chunks of a response whose client takes every event. -/
def dataChunks (r : JsonReader) (ctx : ResponseCtx) (resolved : Resolved) : List ChatChunk :=
  let ch : Channel := { takes := none, events := [] }
  let ch := match resolved with
    | .live live => (pump ctx live ch).channel
    | .done g => emitGenerated ctx g ch
  ch.events.filterMap (SseEvent.chunk r)

/-- What a client makes of the chunks. -/
structure ChatView where
  content : String
  toolCalls : Option Json
  logprobs : List Json
  finishReasons : List String
  usages : List Usage

def readChunks (chunks : List ChatChunk) : ChatView :=
  let choices := chunks.flatMap (·.choices)
  { content := (choices.filterMap (·.delta.content)).foldl (· ++ ·) ""
    toolCalls :=
      ((choices.filterMap (·.delta.toolCalls)).foldl ToolCallAggregator.push .empty).finish
    logprobs := (choices.filterMap (·.logprobs)).flatMap logprobItems
    finishReasons := choices.filterMap (·.finishReason)
    usages := chunks.filterMap (·.usage) }

/-- What a client reads from the chunks is the buffered response. -/
structure ChatView.Agrees (view : ChatView) (body : ChatResponse) : Prop where
  content : view.content = body.content
  toolCalls : view.toolCalls = body.toolCalls
  logprobs : view.logprobs = (body.logprobs.map logprobItems).getD []
  finishReason : view.finishReasons.getLast? = some body.finishReason
  usage : view.usages = [body.usage]

/-! ## Both read from the tokens -/

/-- `pump` forwards the token. -/
def Token.hasPayload (t : Token) : Bool :=
  !t.text.isEmpty || !t.toolCallsJson.isEmpty || !t.finish.isEmpty

/-- The finish reasons a list of tokens carries. -/
def finishReasons (tokens : List Token) : List String :=
  tokens.filterMap fun t => nonEmpty t.finish

theorem nonEmpty_eq_none_iff {s : String} : nonEmpty s = none ↔ s = "" := by
  simp [nonEmpty]

theorem nonEmpty_of_ne {s : String} (h : s ≠ "") : nonEmpty s = some s := by
  simp [nonEmpty, h]

/-- A token without payload has no text, no tool calls and no finish reason. -/
theorem Token.hasPayload_eq_false_iff {t : Token} :
    t.hasPayload = false ↔ t.text = "" ∧ t.toolCallsJson = "" ∧ t.finish = "" := by
  simp [hasPayload, and_assoc]

theorem foldl_append_nonEmpty (texts : List String) (s : String) :
    (texts.filterMap nonEmpty).foldl (· ++ ·) s = texts.foldl (· ++ ·) s := by
  induction texts generalizing s with
  | nil => rfl
  | cons x texts ih =>
    by_cases hx : x = ""
    · rw [List.filterMap_cons_none (nonEmpty_eq_none_iff.mpr hx), ih, List.foldl_cons, hx,
        String.append_empty]
    · rw [List.filterMap_cons_some (nonEmpty_of_ne hx), List.foldl_cons, ih, List.foldl_cons]

/-- Pushing the parsed deltas merges the fragments of all the tokens. -/
theorem foldl_push (r : JsonReader) (tokens : List Token) (agg : ToolCallAggregator) :
    (tokens.filterMap fun t => r.fromStr t.toolCallsJson).foldl ToolCallAggregator.push agg =
      (tokens.flatMap r.toolEntries).foldl ToolCallAggregator.merge agg := by
  induction tokens generalizing agg with
  | nil => rfl
  | cons t tokens ih =>
    rw [List.flatMap_cons, List.foldl_append, JsonReader.toolEntries]
    cases hparse : r.fromStr t.toolCallsJson with
    | none =>
      simp only [List.filterMap_cons, hparse]
      exact ih agg
    | some v =>
      simp only [List.filterMap_cons, hparse, List.foldl_cons]
      rw [ih, ToolCallAggregator.push_eq, Option.bind_some]

theorem flatMap_logprobItems (r : JsonReader) (tokens : List Token) :
    (tokens.filterMap fun t => r.fromStr t.logprobsJson).flatMap logprobItems =
      tokens.flatMap r.logprobsOf := by
  induction tokens with
  | nil => rfl
  | cons t tokens ih =>
    rw [List.flatMap_cons, JsonReader.logprobsOf]
    cases hparse : r.fromStr t.logprobsJson with
    | none =>
      simp only [List.filterMap_cons, hparse]
      exact ih
    | some v =>
      simp only [List.filterMap_cons, hparse, List.flatMap_cons]
      rw [ih]
      rfl

namespace CollectLoop

theorem step_eq (r : JsonReader) (s : CollectLoop) (t : Token) :
    step r s t =
      { out := s.out.push t
        tally := s.tally.observe t
        tools := (r.toolEntries t).foldl ToolCallAggregator.merge s.tools
        logprobs := s.logprobs ++ r.logprobsOf t } := by
  rw [step]
  congr 1
  · by_cases h : t.toolCallsJson = ""
    · rw [r.toolEntries_of_empty h, if_neg (by simp [h])]
      rfl
    · rw [if_pos (by simp [h]), JsonReader.toolEntries]
      cases r.fromStr t.toolCallsJson with
      | none => rfl
      | some v => exact ToolCallAggregator.push_eq s.tools v
  · by_cases h : t.logprobsJson = ""
    · rw [r.logprobsOf_of_empty h, if_neg (by simp [h]), List.append_nil]
    · rw [if_pos (by simp [h]), JsonReader.logprobsOf]
      cases r.fromStr t.logprobsJson with
      | none => exact (List.append_nil _).symm
      | some v => rfl

/-- The loop field by field. -/
theorem foldl_step (r : JsonReader) (tokens : List Token) (s : CollectLoop) :
    tokens.foldl (step r) s =
      { out := tokens.foldl Generated.push s.out
        tally := tokens.foldl Tally.observe s.tally
        tools := (tokens.flatMap r.toolEntries).foldl ToolCallAggregator.merge s.tools
        logprobs := s.logprobs ++ tokens.flatMap r.logprobsOf } := by
  induction tokens generalizing s with
  | nil => simp
  | cons t tokens ih =>
    rw [List.foldl_cons, ih, step_eq]
    simp [List.foldl_append]

end CollectLoop

theorem Generated.foldl_push_text (tokens : List Token) (out : Generated) :
    (tokens.foldl push out).text = (tokens.map (·.text)).foldl (· ++ ·) out.text := by
  induction tokens generalizing out with
  | nil => rfl
  | cons t tokens ih =>
    rw [List.foldl_cons, ih]
    rfl

/-- The last finish reason wins. -/
theorem Generated.foldl_push_finish (tokens : List Token) (out : Generated) :
    (tokens.foldl push out).finish = (finishReasons tokens).getLast?.getD out.finish := by
  induction tokens generalizing out with
  | nil => rfl
  | cons t tokens ih =>
    rw [List.foldl_cons, ih, finishReasons, finishReasons, List.filterMap_cons]
    by_cases h : t.finish = ""
    · rw [nonEmpty_eq_none_iff.mpr h]
      simp [push, h]
    · rw [nonEmpty_of_ne h, List.getLast?_cons]
      simp [push, h]

/-! ## What the events are -/

/-- The loop of `pump` sends the tokens with payload, then the usage of all of them. -/
theorem pumpRest_events {ctx : ResponseCtx} {live : Live} (husage : ctx.includeUsage = true)
    (hok : live.failure = none) (rest : List Token) (tally : Tally) (events : List SseEvent) :
    (pumpRest ctx live rest tally ⟨none, events⟩).channel.events =
      events ++ (rest.filter Token.hasPayload).map .token ++
        [.usage ((rest.foldl Tally.observe tally).usage live.promptEstimate)] := by
  induction rest generalizing tally events with
  | nil =>
    rw [pumpRest, hok, pumpEnd]
    simp [husage, Channel.send]
  | cons t rest ih =>
    rw [pumpRest, List.foldl_cons, ← Token.hasPayload]
    by_cases h : t.hasPayload = true
    · rw [if_neg (by simp [h])]
      simp only [Channel.send, reduceCtorEq, if_false, Option.map_none]
      rw [ih, List.filter_cons_of_pos h]
      simp
    · rw [if_pos (by simp [h])]
      dsimp only
      rw [ih, List.filter_cons_of_neg h]

theorem pump_events {ctx : ResponseCtx} {live : Live} (hchat : ctx.surface = .chat)
    (husage : ctx.includeUsage = true) (hok : live.failure = none) :
    (pump ctx live ⟨none, []⟩).channel.events =
      .role :: (live.tokens.filter Token.hasPayload).map .token ++
        [.usage (usageOf live.promptEstimate live.tokens)] := by
  rw [pump, if_pos hchat]
  exact pumpRest_events husage hok live.tokens .empty [.role]

theorem emitGenerated_events {ctx : ResponseCtx} (hchat : ctx.surface = .chat)
    (husage : ctx.includeUsage = true) (g : Generated) :
    (emitGenerated ctx g ⟨none, []⟩).events =
      [.role, .text g.text, .finish g.finish, .usage g.usage] := by
  simp [emitGenerated, hchat, husage, Channel.send]

/-! ## What a client reads -/

theorem filterMap_payload {β : Type} {f : Token → Option β}
    (hf : ∀ t : Token, t.hasPayload = false → f t = none) (tokens : List Token) :
    (tokens.filter Token.hasPayload).filterMap f = tokens.filterMap f := by
  induction tokens with
  | nil => rfl
  | cons t tokens ih =>
    by_cases h : t.hasPayload = true
    · rw [List.filter_cons_of_pos h, List.filterMap_cons, List.filterMap_cons, ih]
    · rw [List.filter_cons_of_neg h, ih,
        List.filterMap_cons_none (hf t (Bool.eq_false_iff.mpr h))]

/-- Leaving out elements keeps the joined lists exactly if theirs are empty. -/
theorem flatMap_filter_eq_iff {α β : Type} (p : α → Bool) (f : α → List β) (l : List α) :
    (l.filter p).flatMap f = l.flatMap f ↔ ∀ a ∈ l, p a = false → f a = [] := by
  induction l with
  | nil => simp
  | cons a l ih =>
    by_cases h : p a = true
    · rw [List.filter_cons_of_pos h, List.flatMap_cons, List.flatMap_cons,
        List.append_cancel_left_eq, ih]
      simp [h]
    · have hp : p a = false := Bool.eq_false_iff.mpr h
      rw [List.filter_cons_of_neg h, List.flatMap_cons, List.forall_mem_cons]
      constructor
      · intro heq
        -- The rest alone is already at least as long as what the filter left of it.
        have hle : ((l.filter p).flatMap f).length ≤ (l.flatMap f).length :=
          (List.filter_sublist.flatMap f).length_le
        have hlen := congrArg List.length heq
        rw [List.length_append] at hlen
        have hnil : f a = [] := List.eq_nil_of_length_eq_zero (by omega)
        rw [hnil, List.nil_append] at heq
        exact ⟨fun _ => hnil, ih.mp heq⟩
      · rintro ⟨ha, hl⟩
        rw [ha hp, List.nil_append]
        exact ih.mpr hl

/-- The only choice of the chunk of a token. -/
def tokenChoice (r : JsonReader) (t : Token) : ChatChunkChoice where
  delta := { role := none, content := nonEmpty t.text, toolCalls := r.fromStr t.toolCallsJson }
  finishReason := nonEmpty t.finish
  logprobs := r.fromStr t.logprobsJson

/-- The view of the chunks of forwarded tokens, field by field. -/
theorem readChunks_tokens (r : JsonReader) (tokens : List Token) (usage : Usage) :
    readChunks ((SseEvent.role :: tokens.map SseEvent.token ++
        [SseEvent.usage usage]).filterMap (SseEvent.chunk r)) =
      { content := ((tokens.map (·.text)).filterMap nonEmpty).foldl (· ++ ·) ""
        toolCalls := ((tokens.filterMap fun t => r.fromStr t.toolCallsJson).foldl
          ToolCallAggregator.push .empty).finish
        logprobs := (tokens.filterMap fun t => r.fromStr t.logprobsJson).flatMap logprobItems
        finishReasons := finishReasons tokens
        usages := [usage] } := by
  have hchunks : (tokens.map SseEvent.token).filterMap (SseEvent.chunk r) =
      tokens.map (tokenChunk r) := by
    rw [List.filterMap_map]
    exact congrFun List.filterMap_eq_map' tokens
  have hchoices : (tokens.map (tokenChunk r)).flatMap (·.choices) =
      tokens.map (tokenChoice r) := by
    rw [List.flatMap_map, List.map_eq_flatMap]
    rfl
  have husages : (tokens.map (tokenChunk r)).filterMap (·.usage) = [] := by
    simp [tokenChunk, chatChunk]
  rw [List.cons_append, List.filterMap_cons, List.filterMap_append, hchunks]
  simp only [SseEvent.chunk, List.filterMap_cons, List.filterMap_nil, readChunks,
    List.flatMap_cons, List.flatMap_append, List.filterMap_append, hchoices, husages]
  simp [chatChunk, List.filterMap_map, Function.comp_def, tokenChoice, finishReasons]

/-- The view of the chunks of pumped tokens. -/
theorem readChunks_pump (r : JsonReader) {ctx : ResponseCtx} {live : Live}
    (hchat : ctx.surface = .chat) (husage : ctx.includeUsage = true)
    (hok : live.failure = none) :
    readChunks (dataChunks r ctx (.live live)) =
      { content := (live.tokens.map (·.text)).foldl (· ++ ·) ""
        toolCalls := ((live.tokens.flatMap r.toolEntries).foldl
          ToolCallAggregator.merge .empty).finish
        logprobs := (live.tokens.filter Token.hasPayload).flatMap r.logprobsOf
        finishReasons := finishReasons live.tokens
        usages := [usageOf live.promptEstimate live.tokens] } := by
  simp only [dataChunks]
  rw [pump_events hchat husage hok]
  have htext : ((live.tokens.filter Token.hasPayload).map (·.text)).filterMap nonEmpty =
      (live.tokens.map (·.text)).filterMap nonEmpty := by
    rw [List.filterMap_map, List.filterMap_map]
    exact filterMap_payload (fun t h =>
      nonEmpty_eq_none_iff.mpr (Token.hasPayload_eq_false_iff.mp h).1) live.tokens
  have htools : (live.tokens.filter Token.hasPayload).filterMap
        (fun t => r.fromStr t.toolCallsJson) =
      live.tokens.filterMap fun t => r.fromStr t.toolCallsJson :=
    filterMap_payload (fun t h => by
      rw [(Token.hasPayload_eq_false_iff.mp h).2.1, r.fromStr_empty]) live.tokens
  have hfinish : finishReasons (live.tokens.filter Token.hasPayload) =
      finishReasons live.tokens :=
    filterMap_payload (fun t h =>
      nonEmpty_eq_none_iff.mpr (Token.hasPayload_eq_false_iff.mp h).2.2) live.tokens
  rw [readChunks_tokens, htext, htools, hfinish, foldl_append_nonEmpty, foldl_push,
    flatMap_logprobItems]

theorem readChunks_emitGenerated (r : JsonReader) {ctx : ResponseCtx}
    (hchat : ctx.surface = .chat) (husage : ctx.includeUsage = true) (g : Generated) :
    readChunks (dataChunks r ctx (.done g)) =
      { content := g.text
        toolCalls := none
        logprobs := []
        finishReasons := [g.finish]
        usages := [g.usage] } := by
  simp only [dataChunks]
  rw [emitGenerated_events hchat husage]
  simp [readChunks, SseEvent.chunk, chatChunk, ToolCallAggregator.finish, ToolCallAggregator.empty]

/-- The body of a buffered response. -/
theorem bufferedResponse_collectChat (r : JsonReader) (live : Live) :
    bufferedResponse (collectChat r live) =
      { content := (live.tokens.map (·.text)).foldl (· ++ ·) ""
        toolCalls := ((live.tokens.flatMap r.toolEntries).foldl
          ToolCallAggregator.merge .empty).finish
        finishReason := (finishReasons live.tokens).getLast?.getD "stop"
        logprobs := (collectChat r live).logprobs
        usage := usageOf live.promptEstimate live.tokens } := by
  rw [bufferedResponse, collectChat, CollectLoop.run, CollectLoop.foldl_step]
  simp only [Generated.foldl_push_text, Generated.foldl_push_finish]
  rfl

theorem logprobItems_collectChat (r : JsonReader) (live : Live) :
    ((collectChat r live).logprobs.map logprobItems).getD [] =
      live.tokens.flatMap r.logprobsOf := by
  rw [collectChat, CollectLoop.run, CollectLoop.foldl_step]
  simp only [CollectLoop.start, List.nil_append]
  cases live.tokens.flatMap r.logprobsOf with
  | nil => rfl
  | cons v items => rfl

/-! ## Agreement -/

/-- How the tokens of a stream reach a streaming client. -/
inductive Delivery where
  | pumped
  /-- As a cascade step that was buffered and accepted. -/
  | step

/-- What `resolve` gives for the stream. -/
def Delivery.resolved (r : JsonReader) (live : Live) : Delivery → Resolved
  | .pumped => .live live
  | .step => .done (collectChat r live).toGenerated

/-- The tokens a delivery renders without loss. -/
def Delivery.Keeps (r : JsonReader) (tokens : List Token) : Delivery → Prop
  | .pumped => ∀ t ∈ tokens, t.hasPayload = false → r.logprobsOf t = []
  | .step => ∀ t ∈ tokens, r.toolEntries t = [] ∧ r.logprobsOf t = []

/-- Exactly one token carries a finish reason. -/
def FinishesOnce (tokens : List Token) : Prop :=
  (tokens.filter fun t => !t.finish.isEmpty).length = 1

/-- `collect` drains a stream that does not fail into this answer. -/
theorem collect_eq_collectChat (r : JsonReader) {live : Live} (hok : live.failure = none) :
    collect live = .ok (collectChat r live).toGenerated := by
  rw [collectChat, CollectLoop.run, CollectLoop.foldl_step, collect, collectRest_eq, hok]
  rfl

theorem getLast?_finishReasons {tokens : List Token} (h : FinishesOnce tokens) :
    (finishReasons tokens).getLast? = some ((finishReasons tokens).getLast?.getD "stop") := by
  cases hlast : (finishReasons tokens).getLast? with
  | some s => rfl
  | none =>
    have hnone : ∀ t ∈ tokens, nonEmpty t.finish = none :=
      List.filterMap_eq_nil_iff.mp (List.getLast?_eq_none_iff.mp hlast)
    have hfilter : tokens.filter (fun t => !t.finish.isEmpty) = [] :=
      List.filter_eq_nil_iff.mpr fun t ht => by
        simp [nonEmpty_eq_none_iff.mp (hnone t ht)]
    rw [FinishesOnce, hfilter] at h
    cases h

/-- The chunks agree with the buffered answer exactly if the delivery keeps all the tokens
    have. -/
theorem stream_agrees_iff (r : JsonReader) (ctx : ResponseCtx) (live : Live)
    (delivery : Delivery) (hchat : ctx.surface = .chat) (husage : ctx.includeUsage = true)
    (hok : live.failure = none) (hfinish : FinishesOnce live.tokens) :
    (readChunks (dataChunks r ctx (delivery.resolved r live))).Agrees
        (bufferedResponse (collectChat r live)) ↔
      delivery.Keeps r live.tokens := by
  have hlast := getLast?_finishReasons hfinish
  have hbody := bufferedResponse_collectChat r live
  have hitems := logprobItems_collectChat r live
  cases delivery with
  | pumped =>
    rw [Delivery.resolved, readChunks_pump r hchat husage hok, hbody, Delivery.Keeps,
      ← flatMap_filter_eq_iff, ← hitems]
    constructor
    · intro h
      exact h.logprobs
    · intro h
      exact { content := rfl, toolCalls := rfl, logprobs := h, finishReason := hlast, usage := rfl }
  | step =>
    rw [Delivery.resolved, readChunks_emitGenerated r hchat husage]
    have htools : (bufferedResponse (collectChat r live)).toolCalls = none ↔
        ∀ t ∈ live.tokens, r.toolEntries t = [] := by
      rw [hbody, ToolCallAggregator.finish_foldl_eq_none_iff, List.flatMap_eq_nil_iff]
    have hlogprobs : ((collectChat r live).logprobs.map logprobItems).getD [] = [] ↔
        ∀ t ∈ live.tokens, r.logprobsOf t = [] := by
      rw [hitems, List.flatMap_eq_nil_iff]
    constructor
    · intro h t ht
      exact ⟨htools.mp h.toolCalls.symm t ht, hlogprobs.mp h.logprobs.symm t ht⟩
    · intro h
      exact
        { content := rfl
          toolCalls := (htools.mpr fun t ht => (h t ht).1).symm
          logprobs := (hlogprobs.mpr fun t ht => (h t ht).2).symm
          finishReason := rfl
          usage := rfl }

/-- A context of a chat stream with usage. -/
def chatWithUsage : ResponseCtx where
  surface := .chat
  includeUsage := true
  caller := ⟨"apikey:a", "apikey:a"⟩

/-- Reads one tool call fragment and one list of logprobs. -/
def twoTexts : JsonReader where
  fromStr s :=
    if s = "[\x7b\x7d]" then some (.arr [.obj []])
    else if s = "\x7b\"content\":[1]\x7d" then some (.obj [("content", .arr [.uint 1])])
    else none
  fromStr_empty := by decide

/-- A stream of tokens after one with a text. -/
def liveOf (rest : List Token) : Live where
  first := ⟨"a", "", "", "", 0, 0, 0⟩
  rest := { late := false, tokens := rest, failure := none }
  promptEstimate := 3
  node := some "n"

/-- Logprobs on the token that ends the text. -/
def endLogprobs : Live :=
  liveOf [⟨"b", "stop", "", "\x7b\"content\":[1]\x7d", 0, 0, 0⟩]

/-- Logprobs of a token with a text are streamed as they are buffered. -/
theorem stream_agrees_endLogprobs :
    (chatWithUsage.surface = .chat ∧ chatWithUsage.includeUsage = true ∧
        endLogprobs.failure = none ∧ FinishesOnce endLogprobs.tokens) ∧
      (readChunks (dataChunks twoTexts chatWithUsage
        (Delivery.pumped.resolved twoTexts endLogprobs))).Agrees
        (bufferedResponse (collectChat twoTexts endLogprobs)) := by
  have hfinish : FinishesOnce endLogprobs.tokens := by
    unfold FinishesOnce
    decide
  refine ⟨⟨rfl, rfl, rfl, hfinish⟩,
    (stream_agrees_iff twoTexts chatWithUsage endLogprobs .pumped rfl rfl rfl hfinish).mpr ?_⟩
  intro t ht hpayload
  rcases List.mem_cons.mp ht with rfl | hlast
  · cases hpayload
  · rcases List.mem_singleton.mp hlast with rfl
    cases hpayload

/-- Logprobs on a token without payload, then the end. -/
def silentLogprobs : Live :=
  liveOf [⟨"", "", "", "\x7b\"content\":[1]\x7d", 0, 0, 0⟩, ⟨"", "stop", "", "", 0, 0, 0⟩]

/-- A tool call, then the end. -/
def toolCallStream : Live :=
  liveOf [⟨"", "", "[\x7b\x7d]", "", 0, 0, 0⟩, ⟨"", "tool_calls", "", "", 0, 0, 0⟩]

/-- The skipped logprobs are in the body only, and an accepted step loses its tool calls. -/
theorem stream_loses_fields :
    (FinishesOnce silentLogprobs.tokens ∧
      ¬ (readChunks (dataChunks twoTexts chatWithUsage
        (Delivery.pumped.resolved twoTexts silentLogprobs))).Agrees
        (bufferedResponse (collectChat twoTexts silentLogprobs))) ∧
    FinishesOnce toolCallStream.tokens ∧
      ¬ (readChunks (dataChunks twoTexts chatWithUsage
        (Delivery.step.resolved twoTexts toolCallStream))).Agrees
        (bufferedResponse (collectChat twoTexts toolCallStream)) := by
  refine ⟨⟨by unfold FinishesOnce; decide, fun h => ?_⟩, by unfold FinishesOnce; decide,
    fun h => ?_⟩
  · exact absurd (congrArg List.length h.logprobs) (by decide +kernel)
  · exact absurd (congrArg Option.isSome h.toolCalls) (by decide +kernel)

end Cognitora.Router
