/-
  The engine's answer stream (cgn-agent `src/engine/openai_http.rs`, `generate` from the response
  on, `terminal_token`, `mean_logprob`, `find_frame_end`).

  The bytes arrive in chunks; a frame ends with a blank line, LF LF or LF CR LF. The loop cuts
  frames from its buffer, turns the choices of each into tokens and sends them to the client.
  `generate_reads_stream`: how the bytes are cut into chunks makes no difference; a stream of
  events without blank lines inside is processed event by event, through the first `[DONE]`; and
  for a connected client the loop returns `Ok` only after a `[DONE]` or a finish reason.

  The chunks end with the end of the body or with an error. The client is asked at each send
  whether it is still there, and its answer depends on the tokens it already has. `serde_json` is
  a parameter. Frames that are skipped with a warning are only skipped here.
-/
import Mathlib.Data.List.Infix
import Cognitora.Core.Error
import Cognitora.Core.Json
import Cognitora.Auth.KeyFile
import Cognitora.Lib.Framing

namespace Cognitora.Agent

open Cognitora.Core
open Cognitora.Lib (Bytes Cutter lines trim)
open Cognitora.Auth (isWhitespace)

/-! ## Frames -/

/-- One past the blank line that ends the first frame. -/
def findFrameEnd : Bytes → Option Nat
  | [] => none
  | b :: rest =>
    if b = 10 ∧ rest.head? = some 10 then some 2
    else if b = 10 ∧ rest.head? = some 13 ∧ rest[1]? = some 10 then some 3
    else (findFrameEnd rest).map (· + 1)

theorem findFrameEnd_le {buf : Bytes} {n : Nat} (h : findFrameEnd buf = some n) :
    0 < n ∧ n ≤ buf.length := by
  fun_induction findFrameEnd buf generalizing n with
  | case1 => cases h
  | case2 b rest hlf =>
    cases h
    cases rest with
    | nil => cases hlf.2
    | cons c rest => simp
  | case3 b rest _ hcrlf =>
    cases h
    obtain ⟨hlt, -⟩ := List.getElem?_eq_some_iff.mp hcrlf.2.2
    simp only [List.length_cons]
    omega
  | case4 b rest _ _ ih =>
    obtain ⟨m, hm, rfl⟩ := Option.map_eq_some_iff.mp h
    have hle := (ih hm).2
    simp only [List.length_cons]
    omega

/-- More bytes do not move the end of a frame: where they could complete an earlier terminator,
no later one was found. -/
theorem findFrameEnd_append {buf : Bytes} {n : Nat} (more : Bytes) (h : findFrameEnd buf = some n) :
    findFrameEnd (buf ++ more) = some n := by
  fun_induction findFrameEnd buf generalizing n with
  | case1 => cases h
  | case2 b rest hlf =>
    rcases rest with _ | ⟨c, rest⟩
    · cases hlf.2
    · rw [List.cons_append, List.cons_append, findFrameEnd]
      exact (if_pos hlf).trans h
  | case3 b rest hlf hcrlf =>
    rcases rest with _ | ⟨c, _ | ⟨d, rest⟩⟩
    · cases hcrlf.2.1
    · cases hcrlf.2.2
    · rw [List.cons_append, List.cons_append, List.cons_append, findFrameEnd]
      exact (if_neg hlf).trans ((if_pos hcrlf).trans h)
  | case4 b rest hlf hcrlf ih =>
    obtain ⟨m, hm, rfl⟩ := Option.map_eq_some_iff.mp h
    rcases rest with _ | ⟨c, _ | ⟨d, rest⟩⟩
    · cases hm
    · -- a single byte has no terminator
      simp [findFrameEnd] at hm
    · have hrest := ih hm
      rw [List.cons_append, List.cons_append] at hrest
      rw [List.cons_append, List.cons_append, List.cons_append, findFrameEnd, hrest]
      exact (if_neg hlf).trans (if_neg hcrlf)

def sse : Cutter UInt8 where
  cut := findFrameEnd
  pos h := (findFrameEnd_le h).1
  le h := (findFrameEnd_le h).2
  stable := findFrameEnd_append

/-! ## The loop -/

structure Token where
  id : String
  text : String
  logprob : Float32
  finish : String
  toolCallsJson : String
  promptTokens : UInt32
  completionTokens : UInt32
  logprobsJson : String

structure FrameUsage where
  promptTokens : UInt32
  completionTokens : UInt32

structure ChatDelta where
  content : Option String
  toolCalls : Option Json

structure Choice where
  text : Option String
  delta : Option ChatDelta
  finishReason : Option String
  logprobs : Option Json

structure StreamFrame where
  choices : List Choice
  usage : Option FrameUsage

/-- End-of-stream token; it adds a finish reason only when the engine never sent one. -/
def terminalToken (id : String) (sawFinish : Bool) (usage : UInt32 × UInt32) : Token where
  id := id
  text := ""
  logprob := 0
  finish := if sawFinish then "" else "stop"
  toolCallsJson := ""
  promptTokens := usage.1
  completionTokens := usage.2
  logprobsJson := ""

/-- The logprobs of a frame: `content[].logprob` of a chat, `token_logprobs[]` of a completion. -/
def logprobValues (v : Json) : Option (List Float) :=
  match (v.get "content").bind Json.asArray with
  | some items => some (items.filterMap fun i => (i.get "logprob").bind Json.asF64)
  | none => ((v.get "token_logprobs").bind Json.asArray).map (·.filterMap Json.asF64)

def meanLogprob (v : Json) : Option Float32 :=
  (logprobValues v).bind fun values =>
    if values.isEmpty then none
    else some (values.foldl (· + ·) (-0.0) / values.length.toFloat).toFloat32

/-- `trim_start_matches("data:")`, at most `fuel` times. -/
def trimData : Nat → List Char → List Char
  | 0, l => l
  | fuel + 1, l => if "data:".toList.isPrefixOf l then trimData fuel (l.drop 5) else l

/-- The payload of the first data line of a frame. -/
def payload (frame : Bytes) : Option String :=
  let text := ((String.fromUTF8? ⟨frame.toArray⟩).getD "").toList
  (((lines text).map (trim isWhitespace)).find? ("data:".toList.isPrefixOf ·)).map fun line =>
    String.ofList (trim isWhitespace (trimData line.length line))

def Choice.newText (c : Choice) : String :=
  ((c.delta.bind ChatDelta.content).or c.text).getD ""

def Choice.finish (c : Choice) : String :=
  c.finishReason.getD ""

/-- The engine, the request and `serde_json`. -/
structure OpenAiHttpEngine where
  kind : String
  id : String
  forwardLogprobs : Bool
  /-- `serde_json::from_str` to a frame. -/
  parse : String → Option StreamFrame
  /-- `to_string` of a value. -/
  display : Json → String

/-- The variables of the loop, the tokens the client has and the frames processed so far. -/
structure Reader where
  sawFinish : Bool
  usage : UInt32 × UInt32
  sent : List Token
  frames : List Bytes

namespace Reader

def start : Reader where
  sawFinish := false
  usage := (0, 0)
  sent := []
  frames := []

/-- The client has the token. -/
def give (r : Reader) (t : Token) : Reader :=
  { r with sent := r.sent ++ [t] }

end Reader

namespace OpenAiHttpEngine

section

variable (e : OpenAiHttpEngine) (gone : List Token → Bool)

def toolCallsJson (c : Choice) : String :=
  ((c.delta.bind ChatDelta.toolCalls).map e.display).getD ""

def token (c : Choice) : Token where
  id := e.id
  text := c.newText
  logprob := (c.logprobs.bind meanLogprob).getD 0
  finish := c.finish
  toolCallsJson := e.toolCallsJson c
  promptTokens := 0
  completionTokens := 0
  logprobsJson := ((c.logprobs.filter fun _ => e.forwardLogprobs).map e.display).getD ""

/-- `tx.send`, whose result is ignored. -/
def sendLast (r : Reader) (t : Token) : Reader :=
  if gone r.sent then r else r.give t

/-- The choices of a frame; an error is the return when the client is gone. -/
def sendChoices : Reader → List Choice → Except Reader Reader
  | r, [] => .ok r
  | r, c :: cs =>
    if c.newText.isEmpty && c.finish.isEmpty && (e.toolCallsJson c).isEmpty then
      sendChoices r cs
    else
      let r := { r with sawFinish := r.sawFinish || !c.finish.isEmpty }
      if gone r.sent then .error r else sendChoices (r.give (e.token c)) cs

/-- One frame; an error is a return with `Ok`. -/
def process (r : Reader) (frame : Bytes) : Except Reader Reader :=
  let r := { r with frames := r.frames ++ [frame] }
  match payload frame with
  | none => .ok r
  | some p =>
    if p = "[DONE]" then .error (sendLast gone r (terminalToken e.id r.sawFinish r.usage))
    else
      match e.parse p with
      | none => .ok r
      | some f =>
        let r := { r with usage :=
          (f.usage.map fun u => (u.promptTokens, u.completionTokens)).getD r.usage }
        sendChoices e gone r f.choices

/-- After the last chunk: the stream failed, or the body is over. -/
def atEnd (r : Reader) : Option String → Reader × Except Error Unit
  | some err => (r, .error (.internal (e.kind ++ " stream: " ++ err)))
  | none =>
    if r.sawFinish then (sendLast gone r (terminalToken e.id r.sawFinish r.usage), .ok ())
    else (r, .error (.internal (e.kind ++ " stream ended before a finish reason")))

/-- `generate` from the response on: the chunks of the body, and the error they end with, if
any. -/
def generate (chunks : List Bytes) (ending : Option String) : Reader × Except Error Unit :=
  match sse.feed (e.process gone) Reader.start [] chunks with
  | .error r => (r, .ok ())
  | .ok (r, _) => e.atEnd gone r ending

end

/-! ## Events -/

end OpenAiHttpEngine

/-- Neither empty nor a lone carriage return. -/
def NotBlank (line : Bytes) : Prop :=
  line ≠ [] ∧ line ≠ [13]

/-- An event without blank lines inside, and the line ending of its terminator. -/
structure SseEvent where
  body : Bytes
  crlf : Bool
  not_blank : ∀ line ∈ body.splitOn 10, NotBlank line

namespace SseEvent

def terminator (crlf : Bool) : Bytes :=
  if crlf then [13, 10, 13, 10] else [10, 10]

def text (ev : SseEvent) : Bytes :=
  ev.body ++ terminator ev.crlf

end SseEvent

theorem splitOn_lf (body : Bytes) : (10 :: body).splitOn 10 = [] :: body.splitOn 10 := by
  rw [List.splitOn_eq_splitOnP, List.splitOnP_cons_eq_if_modifyHead, if_pos (by decide)]
  rfl

theorem splitOn_of_ne {b : UInt8} (hb : b ≠ 10) (body : Bytes) :
    ∃ line rest, body.splitOn 10 = line :: rest ∧
      (b :: body).splitOn 10 = (b :: line) :: rest := by
  cases hsplit : body.splitOn 10 with
  | nil => exact absurd hsplit (List.splitOnP_ne_nil _ _)
  | cons line rest =>
    refine ⟨line, rest, rfl, ?_⟩
    rw [List.splitOn_eq_splitOnP] at hsplit
    rw [List.splitOn_eq_splitOnP, List.splitOnP_cons_eq_if_modifyHead,
      if_neg (by simpa using hb), hsplit]
    rfl

/-- A text whose first line is not blank begins neither with LF nor with CR LF, whatever
follows. -/
theorem head_of_notBlank {body : Bytes} (h : ∀ line ∈ (body.splitOn 10).head?, NotBlank line)
    (more : Bytes) :
    (body ++ more).head? ≠ some 10 ∧
      ¬ ((body ++ more).head? = some 13 ∧ (body ++ more)[1]? = some 10) := by
  rcases body with _ | ⟨c, body⟩
  · exact absurd rfl (h [] rfl).1
  · have hc : c ≠ 10 := by
      rintro rfl
      rw [splitOn_lf] at h
      exact (h [] rfl).1 rfl
    obtain ⟨line, rest, hsplit, hcons⟩ := splitOn_of_ne hc body
    have hline := h (c :: line) (by rw [hcons]; rfl)
    refine ⟨fun hhead => hc (Option.some.inj hhead), fun hcrlf => ?_⟩
    obtain ⟨hcr, hlf⟩ := hcrlf
    have hc13 : c = 13 := Option.some.inj hcr
    -- the carriage return is not the whole line, so a byte other than LF follows it
    rcases body with _ | ⟨d, body⟩
    · cases hsplit
      exact hline.2 (by rw [hc13]; rfl)
    · have hd : d = 10 := Option.some.inj hlf
      rw [hd, splitOn_lf] at hsplit
      cases hsplit
      exact hline.2 (by rw [hc13])

/-- No frame ends before the terminator: after an LF inside comes a line that is not blank. -/
theorem findFrameEnd_body {body : Bytes} (h : ∀ line ∈ (body.splitOn 10).tail, NotBlank line)
    (crlf : Bool) :
    findFrameEnd (body ++ SseEvent.terminator crlf) =
      some (body ++ SseEvent.terminator crlf).length := by
  induction body with
  | nil => cases crlf <;> rfl
  | cons b body ih =>
    have hno : ¬ (b = 10 ∧ (body ++ SseEvent.terminator crlf).head? = some 10) ∧
        ¬ (b = 10 ∧ (body ++ SseEvent.terminator crlf).head? = some 13 ∧
          (body ++ SseEvent.terminator crlf)[1]? = some 10) := by
      by_cases hb : b = 10
      · rw [hb, splitOn_lf, List.tail_cons] at h
        have hhead := head_of_notBlank (fun line hline => h line (List.mem_of_mem_head? hline))
          (SseEvent.terminator crlf)
        exact ⟨fun hlf => hhead.1 hlf.2, fun hcrlf => hhead.2 hcrlf.2⟩
      · exact ⟨fun hlf => hb hlf.1, fun hcrlf => hb hcrlf.1⟩
    have htail : ∀ line ∈ (body.splitOn 10).tail, NotBlank line := by
      intro line hline
      refine h line ?_
      by_cases hb : b = 10
      · rw [hb, splitOn_lf, List.tail_cons]
        exact List.mem_of_mem_tail hline
      · obtain ⟨first, rest, hsplit, hcons⟩ := splitOn_of_ne hb body
        rw [hsplit] at hline
        rw [hcons]
        exact hline
    rw [List.cons_append, findFrameEnd, if_neg hno.1, if_neg hno.2, ih htail]
    rfl

theorem SseEvent.findFrameEnd_text (ev : SseEvent) : sse.cut ev.text = some ev.text.length :=
  findFrameEnd_body (fun line hline => ev.not_blank line (List.mem_of_mem_tail hline)) ev.crlf

/-! ## What a frame does -/

def IsDone (frame : Bytes) : Prop :=
  payload frame = some "[DONE]"

instance : DecidablePred IsDone := fun frame =>
  inferInstanceAs (Decidable (payload frame = some "[DONE]"))

/-- The frames through the first `[DONE]`, all of them if there is none. -/
def throughDone : List Bytes → List Bytes
  | [] => []
  | frame :: frames => if IsDone frame then [frame] else frame :: throughDone frames

theorem throughDone_of_none {frames : List Bytes} (h : ∀ frame ∈ frames, ¬ IsDone frame) :
    throughDone frames = frames := by
  induction frames with
  | nil => rfl
  | cons frame frames ih =>
    rw [throughDone, if_neg (h frame List.mem_cons_self),
      ih fun f hf => h f (List.mem_cons_of_mem _ hf)]

theorem throughDone_append {frames : List Bytes} (h : ∀ frame ∈ frames, ¬ IsDone frame)
    {last : Bytes} (hlast : IsDone last) (rest : List Bytes) :
    throughDone (frames ++ last :: rest) = frames ++ [last] := by
  induction frames with
  | nil => rw [List.nil_append, throughDone, if_pos hlast, List.nil_append]
  | cons frame frames ih =>
    rw [List.cons_append, throughDone, if_neg (h frame List.mem_cons_self),
      ih fun f hf => h f (List.mem_cons_of_mem _ hf), List.cons_append]

namespace OpenAiHttpEngine

variable {e : OpenAiHttpEngine} {gone : List Token → Bool} {r r' : Reader}

/-- A choice of the frame has a finish reason. -/
def HasFinish (e : OpenAiHttpEngine) (frame : Bytes) : Prop :=
  ∃ p f, payload frame = some p ∧ e.parse p = some f ∧ ∃ c ∈ f.choices, c.finish ≠ ""

theorem frames_sendLast (r : Reader) (t : Token) : (sendLast gone r t).frames = r.frames := by
  unfold sendLast
  split <;> rfl

theorem frames_atEnd (r : Reader) (ending : Option String) :
    (e.atEnd gone r ending).1.frames = r.frames := by
  unfold atEnd
  split
  · rfl
  · split
    · exact frames_sendLast r _
    · rfl

theorem sawFinish_of_atEnd {ending : Option String} (h : (e.atEnd gone r ending).2 = .ok ()) :
    r.sawFinish = true := by
  unfold atEnd at h
  split at h
  · cases h
  · split at h
    · assumption
    · cases h

theorem sendChoices_ok {cs : List Choice} (h : sendChoices e gone r cs = .ok r') :
    r'.frames = r.frames ∧
      (r'.sawFinish = true → r.sawFinish = true ∨ ∃ c ∈ cs, c.finish ≠ "") := by
  fun_induction sendChoices e gone r cs with
  | case1 r =>
    cases h
    exact ⟨rfl, Or.inl⟩
  | case2 r c cs _ ih =>
    obtain ⟨hframes, hfinish⟩ := ih h
    refine ⟨hframes, fun hsaw => (hfinish hsaw).imp_right ?_⟩
    rintro ⟨c', hmem, hne⟩
    exact ⟨c', List.mem_cons_of_mem _ hmem, hne⟩
  | case3 r c cs _ _ hgone => cases h
  | case4 r c cs _ _ hgone ih =>
    obtain ⟨hframes, hfinish⟩ := ih h
    refine ⟨hframes, fun hsaw => ?_⟩
    rcases hfinish hsaw with hbefore | ⟨c', hmem, hne⟩
    · -- the flag is raised by the choice itself, or was up
      rcases Bool.or_eq_true_iff.mp hbefore with hold | hnew
      · exact Or.inl hold
      · exact Or.inr ⟨c, List.mem_cons_self, by simpa using hnew⟩
    · exact Or.inr ⟨c', List.mem_cons_of_mem _ hmem, hne⟩

theorem sendChoices_error {cs : List Choice} (h : sendChoices e gone r cs = .error r') :
    r'.frames = r.frames ∧ ∃ sent, gone sent = true := by
  fun_induction sendChoices e gone r cs with
  | case1 r => cases h
  | case2 r c cs _ ih => exact ih h
  | case3 r c cs _ r₁ hgone =>
    rw [← Except.error.inj h]
    exact ⟨rfl, r₁.sent, hgone⟩
  | case4 r c cs _ r₁ hgone ih =>
    obtain ⟨hframes, hsome⟩ := ih h
    exact ⟨hframes, hsome⟩

/-- The loop goes on after a frame. -/
theorem process_ok {frame : Bytes} (h : e.process gone r frame = .ok r') :
    r'.frames = r.frames ++ [frame] ∧ ¬ IsDone frame ∧
      (r'.sawFinish = true → r.sawFinish = true ∨ e.HasFinish frame) := by
  unfold process at h
  cases hp : payload frame with
  | none =>
    rw [hp] at h
    cases h
    have hnot : ¬ IsDone frame := by
      unfold IsDone
      rw [hp]
      exact nofun
    exact ⟨rfl, hnot, Or.inl⟩
  | some p =>
    rw [hp] at h
    by_cases hdone : p = "[DONE]"
    · simp only [if_pos hdone] at h
      cases h
    · have hnot : ¬ IsDone frame := fun hd => hdone (Option.some.inj (hp.symm.trans hd))
      simp only [if_neg hdone] at h
      cases hf : e.parse p with
      | none =>
        rw [hf] at h
        cases h
        exact ⟨rfl, hnot, Or.inl⟩
      | some f =>
        rw [hf] at h
        obtain ⟨hframes, hfinish⟩ := sendChoices_ok h
        exact ⟨hframes, hnot, fun hsaw => (hfinish hsaw).imp_right fun hc => ⟨p, f, hp, hf, hc⟩⟩

/-- The loop returns at a frame. -/
theorem process_error {frame : Bytes} (h : e.process gone r frame = .error r') :
    r'.frames = r.frames ++ [frame] ∧ (IsDone frame ∨ ∃ sent, gone sent = true) := by
  unfold process at h
  cases hp : payload frame with
  | none =>
    rw [hp] at h
    cases h
  | some p =>
    rw [hp] at h
    by_cases hdone : p = "[DONE]"
    · simp only [if_pos hdone] at h
      cases h
      exact ⟨frames_sendLast _ _, Or.inl (hp.trans (congrArg some hdone))⟩
    · simp only [if_neg hdone] at h
      cases hf : e.parse p with
      | none =>
        rw [hf] at h
        cases h
      | some f =>
        rw [hf] at h
        obtain ⟨hframes, hsome⟩ := sendChoices_error h
        exact ⟨hframes, Or.inr hsome⟩

/-! ## The whole stream -/

theorem run_ok {frames : List Bytes} (h : frames.foldlM (e.process gone) r = .ok r') :
    r'.frames = r.frames ++ frames ∧ (∀ frame ∈ frames, ¬ IsDone frame) ∧
      (r'.sawFinish = true → r.sawFinish = true ∨ ∃ frame ∈ frames, e.HasFinish frame) := by
  induction frames generalizing r with
  | nil =>
    cases h
    exact ⟨(List.append_nil _).symm, by simp, Or.inl⟩
  | cons frame frames ih =>
    rw [List.foldlM_cons] at h
    cases hstep : e.process gone r frame with
    | error r₁ =>
      rw [hstep] at h
      cases h
    | ok r₁ =>
      rw [hstep] at h
      obtain ⟨hframes, hdone, hfinish⟩ := process_ok hstep
      obtain ⟨hframes', hdone', hfinish'⟩ := ih h
      refine ⟨?_, List.forall_mem_cons.mpr ⟨hdone, hdone'⟩, fun hsaw => ?_⟩
      · rw [hframes', hframes, List.append_assoc]
        rfl
      · rcases hfinish' hsaw with hsaw₁ | ⟨f, hf, hhas⟩
        · exact (hfinish hsaw₁).imp_right fun hhas => ⟨frame, List.mem_cons_self, hhas⟩
        · exact Or.inr ⟨f, List.mem_cons_of_mem _ hf, hhas⟩

theorem run_error {frames : List Bytes} (h : frames.foldlM (e.process gone) r = .error r') :
    ∃ before last rest, frames = before ++ last :: rest ∧
      r'.frames = r.frames ++ (before ++ [last]) ∧ (∀ frame ∈ before, ¬ IsDone frame) ∧
      (IsDone last ∨ ∃ sent, gone sent = true) := by
  induction frames generalizing r with
  | nil => cases h
  | cons frame frames ih =>
    rw [List.foldlM_cons] at h
    cases hstep : e.process gone r frame with
    | error r₁ =>
      rw [hstep] at h
      cases h
      obtain ⟨hframes, hwhy⟩ := process_error hstep
      exact ⟨[], frame, frames, rfl, hframes, by simp, hwhy⟩
    | ok r₁ =>
      rw [hstep] at h
      obtain ⟨hframes, hdone, -⟩ := process_ok hstep
      obtain ⟨before, last, rest, hsplit, hframes', hbefore, hwhy⟩ := ih h
      refine ⟨frame :: before, last, rest, by rw [hsplit]; rfl, ?_,
        List.forall_mem_cons.mpr ⟨hdone, hbefore⟩, hwhy⟩
      rw [hframes', hframes, List.append_assoc]
      rfl

/-- The loop is a fold over the frames of the stream. -/
theorem feed_start (chunks : List Bytes) :
    sse.feed (e.process gone) Reader.start [] chunks =
      ((sse.frames chunks.flatten).1.foldlM (e.process gone) Reader.start).map fun r =>
        (r, (sse.frames chunks.flatten).2) :=
  Cutter.feed_eq (Cutter.frames_of_none Cutter.cut_nil) _ _

/-- How `generate` ends, by the frames of the stream. -/
theorem generate_cases (e : OpenAiHttpEngine) (gone : List Token → Bool) (chunks : List Bytes)
    (ending : Option String) :
    (∃ before last rest, (sse.frames chunks.flatten).1 = before ++ last :: rest ∧
        (e.generate gone chunks ending).1.frames = before ++ [last] ∧
        (∀ frame ∈ before, ¬ IsDone frame) ∧ (IsDone last ∨ ∃ sent, gone sent = true)) ∨
      (e.generate gone chunks ending).1.frames = (sse.frames chunks.flatten).1 ∧
        (∀ frame ∈ (sse.frames chunks.flatten).1, ¬ IsDone frame) ∧
        ((e.generate gone chunks ending).2 = .ok () →
          ∃ frame ∈ (sse.frames chunks.flatten).1, e.HasFinish frame) := by
  unfold generate
  rw [feed_start]
  cases hrun : (sse.frames chunks.flatten).1.foldlM (e.process gone) Reader.start with
  | error r => exact Or.inl (run_error hrun)
  | ok r =>
    obtain ⟨hframes, hdone, hfinish⟩ := run_ok hrun
    refine Or.inr ⟨(frames_atEnd r ending).trans hframes, hdone, fun hok => ?_⟩
    exact (hfinish (sawFinish_of_atEnd hok)).resolve_left Bool.false_ne_true

/-- For a connected client only a `[DONE]` ends the loop. -/
theorem isDone_of_connected {gone : List Token → Bool} {last : Bytes}
    (hthere : ∀ sent, gone sent = false) (hwhy : IsDone last ∨ ∃ sent, gone sent = true) :
    IsDone last := by
  refine hwhy.resolve_right fun ⟨sent, hgone⟩ => ?_
  rw [hthere sent] at hgone
  cases hgone

/-- Any two ways to cut a stream into chunks have the same outcome. A stream of events is
    processed event by event, for a connected client through the first `[DONE]`; and then `Ok`
    comes only after a `[DONE]` or a finish reason. -/
theorem generate_reads_stream (e : OpenAiHttpEngine) :
    (∀ gone chunks chunks' ending, chunks.flatten = chunks'.flatten →
        e.generate gone chunks ending = e.generate gone chunks' ending) ∧
      (∀ gone chunks ending, ∀ events : List SseEvent,
        chunks.flatten = (events.map SseEvent.text).flatten →
          (e.generate gone chunks ending).1.frames <+: events.map SseEvent.text ∧
          ((∀ sent, gone sent = false) →
            (e.generate gone chunks ending).1.frames = throughDone (events.map SseEvent.text))) ∧
      ∀ gone chunks ending, (∀ sent, gone sent = false) →
        (e.generate gone chunks ending).2 = .ok () →
          ∃ frame ∈ (e.generate gone chunks ending).1.frames, IsDone frame ∨ e.HasFinish frame := by
  refine ⟨fun gone chunks chunks' ending hsame => ?chunking,
    fun gone chunks ending events hevents => ?events, fun gone chunks ending hthere hok => ?ok⟩
  case chunking =>
    unfold generate
    rw [feed_start, feed_start, hsame]
  case events =>
    have hcut : (sse.frames chunks.flatten).1 = events.map SseEvent.text := by
      rw [hevents, Cutter.frames_flatten]
      intro t ht
      obtain ⟨ev, -, rfl⟩ := List.mem_map.mp ht
      exact ev.findFrameEnd_text
    rcases e.generate_cases gone chunks ending with
      ⟨before, last, rest, hsplit, hframes, hbefore, hwhy⟩ | ⟨hframes, hdone, -⟩
    · rw [← hcut, hsplit, hframes]
      refine ⟨⟨rest, by rw [List.append_assoc]; rfl⟩, fun hthere => ?_⟩
      exact (throughDone_append hbefore (isDone_of_connected hthere hwhy) rest).symm
    · rw [← hcut, hframes]
      exact ⟨List.prefix_rfl, fun _ => (throughDone_of_none hdone).symm⟩
  case ok =>
    rcases e.generate_cases gone chunks ending with
      ⟨before, last, rest, -, hframes, -, hwhy⟩ | ⟨hframes, -, hfinish⟩
    · rw [hframes]
      exact ⟨last, List.mem_append_right _ List.mem_cons_self,
        Or.inl (isDone_of_connected hthere hwhy)⟩
    · rw [hframes]
      obtain ⟨frame, hmem, hhas⟩ := hfinish hok
      exact ⟨frame, hmem, Or.inr hhas⟩

end OpenAiHttpEngine

end Cognitora.Agent
