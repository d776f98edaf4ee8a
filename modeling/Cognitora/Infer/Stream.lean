/-
  One request, seen alone.

  `Stream` is the output side of one request: the tokens generated, how much text was emitted,
  the events passed to `blocking_send`, and how it ended. Its inputs are the tokens sampled for
  it and the failures of runtime calls made for it. `Infer.Refinement` proves that the
  scheduler treats every request this way, whatever the others do.

  A client that hangs up after `n` events receives the first `n` of those offered.
-/
import Cognitora.Infer.Scheduler

namespace Cognitora.Infer

/-- How the output of a request ended. -/
inductive Ending where
  /-- By `enqueue`. -/
  | rejected
  | eos
  | stopString
  | length
  /-- A call to the runtime or to the tokenizer failed. -/
  | failed
  /-- `finish_silent`: the client was gone when text was sent. -/
  | disconnected
  deriving DecidableEq

/-- The reason in the final event. -/
def Ending.reason : Ending → Option FinishReason
  | .rejected => some .error
  | .eos => some .stop
  | .stopString => some .stop
  | .length => some .length
  | .failed => some .error
  | .disconnected => none

theorem Ending.reason_ne_none {ending : Ending} (h : ending ≠ .disconnected) :
    ending.reason ≠ none := by
  cases ending <;> simp [Ending.reason] at h ⊢

structure Stream (σ : Type) where
  req : Request σ
  generated : List Token
  /-- Bytes of decoded text already emitted. -/
  emittedLen : Nat
  /-- The events passed to `blocking_send`. -/
  offered : List StreamEvent
  ended : Option Ending
  badSlice : Bool

/-- What reaches a request. -/
inductive Input where
  | token (t : Token)
  | failure

namespace Stream

variable {σ : Type}

/-- The events the client receives. -/
def received (st : Stream σ) : List StreamEvent :=
  match st.req.tx.hangup with
  | none => st.offered
  | some n => st.offered.take n

/-- The next `blocking_send` will succeed. -/
def connected (st : Stream σ) : Bool :=
  match st.req.tx.hangup with
  | none => true
  | some n => decide (st.offered.length < n)

def event (st : Stream σ) (delta : Text) (reason : Option FinishReason) : StreamEvent where
  delta := delta
  finishReason := reason
  promptTokens := st.req.promptTokens.length
  completionTokens := st.generated.length

def offer (st : Stream σ) (delta : Text) (reason : Option FinishReason) : Stream σ :=
  { st with offered := st.offered ++ [st.event delta reason] }

def sliceText (st : Stream σ) (text : Text) (a b : Nat) : Text × Stream σ :=
  match slice text a b with
  | some t => (t, st)
  | none => ([], { st with badSlice := true })

/-- The final event. -/
def close (st : Stream σ) (ending : Ending) : Stream σ :=
  { st.offer [] ending.reason with ended := some ending }

/-- The text not emitted yet. -/
def flush (st : Stream σ) : Stream σ :=
  match st.req.tokenizer st.generated with
  | none => st
  | some text =>
    if st.emittedLen < byteLen text then
      let d := st.sliceText text st.emittedLen (byteLen text)
      d.2.offer d.1 none
    else st

/-- `finish`, which flushes held-back text only at the length budget. -/
def finish (st : Stream σ) (ending : Ending) : Stream σ :=
  (if ending.reason = some .length then st.flush else st).close ending

/-- The text up to a stop string at `hit`, then the end. -/
def stopAt (st : Stream σ) (text : Text) (hit : Nat) : Stream σ :=
  let head := st.sliceText text 0 hit
  let st := head.2
  let delta := (dropBytes head.1 st.emittedLen).getD []
  let st := if delta.isEmpty then st else { st with emittedLen := hit }.offer delta none
  st.finish .stopString

/-- New text that is complete and safe; the flag is set when the client is gone. -/
def emitNew (st : Stream σ) (text : Text) : Bool × Stream σ :=
  if !endsIncomplete text && decide (st.emittedLen < byteLen text) then
    let safeLen := heldBackLen text st.req.stop
    if st.emittedLen < safeLen then
      let d := st.sliceText text st.emittedLen safeLen
      let st := { d.2 with emittedLen := safeLen }
      (!st.connected, st.offer d.1 none)
    else (false, st)
  else (false, st)

/-- The most tokens the request may generate. -/
def budget (maxSeqLen : Nat) (st : Stream σ) : Nat :=
  min st.req.maxTokens (maxSeqLen - st.req.promptTokens.length)

/-- The rest of `push` once the token is among those generated. -/
def emitOrFinish (maxSeqLen : Nat) (st : Stream σ) : Stream σ :=
  match st.req.tokenizer st.generated with
  | none => st.finish .failed
  | some text =>
    match (st.req.stop.filterMap (find text)).min? with
    | some hit => st.stopAt text hit
    | none =>
      let r := st.emitNew text
      if r.1 then { r.2 with ended := some .disconnected }
      else if st.budget maxSeqLen ≤ st.generated.length then r.2.finish .length
      else r.2

/-- A sampled token. -/
def push (maxSeqLen : Nat) (st : Stream σ) (token : Token) : Stream σ :=
  if some token = st.req.eosTokenId then st.finish .eos
  else { st with generated := st.generated ++ [token] }.emitOrFinish maxSeqLen

/-- Nothing reaches a request that has ended. -/
def feed (maxSeqLen : Nat) (st : Stream σ) (x : Input) : Stream σ :=
  if st.ended.isSome then st
  else
    match x with
    | .token t => st.push maxSeqLen t
    | .failure => st.finish .failed

/-- A request right after `enqueue`. -/
def start (maxSeqLen : Nat) (req : Request σ) : Stream σ :=
  let st : Stream σ :=
    { req := req, generated := [], emittedLen := 0, offered := [], ended := none,
      badSlice := false }
  if req.promptTokens.isEmpty || decide (maxSeqLen ≤ req.promptTokens.length) then
    st.close .rejected
  else st

/-- A request after some inputs. -/
def run (maxSeqLen : Nat) (req : Request σ) (inputs : List Input) : Stream σ :=
  inputs.foldl (feed maxSeqLen) (start maxSeqLen req)

theorem feed_token {st : Stream σ} (h : st.ended = none) (maxSeqLen : Nat) (t : Token) :
    st.feed maxSeqLen (.token t) = st.push maxSeqLen t := by
  rw [feed, h]
  rfl

theorem feed_failure {st : Stream σ} (h : st.ended = none) (maxSeqLen : Nat) :
    st.feed maxSeqLen .failure = st.finish .failed := by
  rw [feed, h]
  rfl

theorem finish_ended (st : Stream σ) (ending : Ending) : (st.finish ending).ended = some ending :=
  rfl

theorem stopAt_ended (st : Stream σ) (text : Text) (hit : Nat) :
    (st.stopAt text hit).ended = some .stopString :=
  rfl

/-! ## What an operation leaves alone -/

/-- The same request with the same tokens and the same ending, after some more events. -/
structure Onward (st st' : Stream σ) : Prop where
  req_eq : st'.req = st.req
  generated_eq : st'.generated = st.generated
  ended_eq : st'.ended = st.ended

theorem onward_sliceText (st : Stream σ) (text : Text) (a b : Nat) :
    Onward st (st.sliceText text a b).2 ∧ (st.sliceText text a b).2.offered = st.offered ∧
      (st.sliceText text a b).2.emittedLen = st.emittedLen := by
  unfold sliceText
  split
  · exact ⟨⟨rfl, rfl, rfl⟩, rfl, rfl⟩
  · exact ⟨⟨rfl, rfl, rfl⟩, rfl, rfl⟩

theorem onward_flush (st : Stream σ) :
    Onward st st.flush ∧ st.flush.emittedLen = st.emittedLen := by
  unfold flush
  split
  · exact ⟨⟨rfl, rfl, rfl⟩, rfl⟩
  · dsimp only
    split
    · next text _ _ =>
      obtain ⟨hon, _, hlen⟩ := onward_sliceText st text st.emittedLen (byteLen text)
      exact ⟨⟨hon.req_eq, hon.generated_eq, hon.ended_eq⟩, hlen⟩
    · exact ⟨⟨rfl, rfl, rfl⟩, rfl⟩

theorem onward_emitNew (st : Stream σ) (text : Text) : Onward st (st.emitNew text).2 := by
  unfold emitNew
  split
  · dsimp only
    split
    · obtain ⟨hon, _, _⟩ := onward_sliceText st text st.emittedLen (heldBackLen text st.req.stop)
      exact ⟨hon.req_eq, hon.generated_eq, hon.ended_eq⟩
    · exact ⟨rfl, rfl, rfl⟩
  · exact ⟨rfl, rfl, rfl⟩

/-! ## What the client receives -/

theorem received_initial (st : Stream σ) : st.received <+: st.offered := by
  unfold received
  split
  · exact List.prefix_refl _
  · exact List.take_prefix _ _

/-- The client has received what it was offered, or it hung up before. -/
theorem received_cases (st : Stream σ) :
    st.received = st.offered ∨
      ∃ n, st.req.tx.hangup = some n ∧ n = st.received.length ∧ n < st.offered.length := by
  unfold received
  split
  · exact Or.inl rfl
  · next n hn =>
    rcases Nat.lt_or_ge n st.offered.length with hlt | hge
    · refine Or.inr ⟨n, hn, ?_, hlt⟩
      rw [List.length_take]
      omega
    · exact Or.inl (List.take_of_length_le hge)

/-! ## The request -/

theorem finish_req (st : Stream σ) (ending : Ending) : (st.finish ending).req = st.req := by
  unfold finish
  split
  · exact st.onward_flush.1.req_eq
  · rfl

theorem stopAt_req (st : Stream σ) (text : Text) (hit : Nat) :
    (st.stopAt text hit).req = st.req := by
  have hs := (st.onward_sliceText text 0 hit).1.req_eq
  unfold stopAt
  rw [finish_req]
  split
  · exact hs
  · exact hs

theorem finish_generated (st : Stream σ) (ending : Ending) :
    (st.finish ending).generated = st.generated := by
  unfold finish
  split
  · exact st.onward_flush.1.generated_eq
  · rfl

theorem stopAt_generated (st : Stream σ) (text : Text) (hit : Nat) :
    (st.stopAt text hit).generated = st.generated := by
  have hs := (st.onward_sliceText text 0 hit).1.generated_eq
  unfold stopAt
  rw [finish_generated]
  split
  · exact hs
  · exact hs

theorem emitOrFinish_req (st : Stream σ) (maxSeqLen : Nat) :
    (st.emitOrFinish maxSeqLen).req = st.req := by
  unfold emitOrFinish
  split
  · exact finish_req _ _
  · next text _ =>
    split
    · exact stopAt_req _ _ _
    · have hs := (st.onward_emitNew text).req_eq
      dsimp only
      split
      · exact hs
      · split
        · rw [finish_req]
          exact hs
        · exact hs

theorem feed_req (st : Stream σ) (maxSeqLen : Nat) (x : Input) :
    (st.feed maxSeqLen x).req = st.req := by
  unfold feed
  split
  · rfl
  · split
    · unfold push
      split
      · exact finish_req _ _
      · exact emitOrFinish_req _ _
    · exact finish_req _ _

theorem start_req (maxSeqLen : Nat) (req : Request σ) : (start maxSeqLen req).req = req := by
  unfold start
  dsimp only
  split <;> rfl

theorem run_req (maxSeqLen : Nat) (req : Request σ) (inputs : List Input) :
    (run maxSeqLen req inputs).req = req :=
  List.foldlRecOn (motive := fun st : Stream σ => st.req = req) inputs _ (start_req maxSeqLen req)
    fun st h x _ => (feed_req st maxSeqLen x).trans h

/-! ## Final events -/

/-- None of the events is final. -/
def NoneFinal (events : List StreamEvent) : Prop :=
  ∀ ev ∈ events, ev.finishReason = none

theorem NoneFinal.concat {events : List StreamEvent} (h : NoneFinal events) {ev : StreamEvent}
    (hev : ev.finishReason = none) : NoneFinal (events ++ [ev]) := by
  intro x hx
  rcases List.mem_append.mp hx with hx | hx
  · exact h x hx
  · rw [List.mem_singleton.mp hx]
    exact hev

theorem NoneFinal.mono {events events' : List StreamEvent} (h : NoneFinal events)
    (hpre : events' <+: events) : NoneFinal events' :=
  fun ev hev => h ev (hpre.subset hev)

/-- Exactly the last of the events is final. -/
def LastFinal (events : List StreamEvent) : Prop :=
  ∃ init ev, events = init ++ [ev] ∧ NoneFinal init ∧ ev.finishReason ≠ none

theorem LastFinal.not_noneFinal {events : List StreamEvent} (h : LastFinal events) :
    ¬ NoneFinal events := by
  obtain ⟨init, ev, rfl, _, hev⟩ := h
  intro hnone
  exact hev (hnone ev (List.mem_append_right _ (List.mem_singleton_self ev)))

/-- A request offers its final event as the last one when it ends, unless it ends because its
    client is gone. -/
def EndsWell (st : Stream σ) : Prop :=
  match st.ended with
  | none => NoneFinal st.offered
  | some .disconnected =>
    NoneFinal st.offered ∧ ∃ n, st.req.tx.hangup = some n ∧ n < st.offered.length
  | some _ => LastFinal st.offered

theorem EndsWell.noneFinal {st : Stream σ} (h : EndsWell st) (hlive : st.ended = none) :
    NoneFinal st.offered := by
  unfold EndsWell at h
  rwa [hlive] at h

/-- No event but the last one received is final. -/
theorem EndsWell.noneFinal_or_lastFinal {st : Stream σ} (h : EndsWell st) :
    NoneFinal st.received ∨ LastFinal st.received := by
  have hpre := st.received_initial
  unfold EndsWell at h
  split at h
  · exact Or.inl (h.mono hpre)
  · exact Or.inl (h.1.mono hpre)
  · obtain ⟨init, ev, he, hnone, hev⟩ := h
    rw [he] at hpre
    rcases List.prefix_concat_iff.mp hpre with heq | hinit
    · exact Or.inr ⟨init, ev, heq, hnone, hev⟩
    · exact Or.inl (hnone.mono hinit)

/-- The client of a request that has ended has received the final event, or hung up before. -/
theorem EndsWell.received {st : Stream σ} (h : EndsWell st) (hended : st.ended ≠ none) :
    LastFinal st.received ∨ ∃ n, st.req.tx.hangup = some n ∧ n = st.received.length := by
  rcases st.received_cases with heq | ⟨n, hn, hlen, _⟩
  · unfold EndsWell at h
    rw [heq]
    split at h
    · exact absurd ‹_› hended
    · obtain ⟨_, n, hn, hlt⟩ := h
      unfold Stream.received at heq
      rw [hn] at heq
      have := congrArg List.length heq
      rw [List.length_take] at this
      omega
    · exact Or.inl h
  · exact Or.inr ⟨n, hn, hlen⟩

theorem endsWell_close {st : Stream σ} (h : NoneFinal st.offered) {ending : Ending}
    (he : ending ≠ .disconnected) : EndsWell (st.close ending) := by
  have hlast : LastFinal (st.close ending).offered :=
    ⟨st.offered, _, rfl, h, Ending.reason_ne_none he⟩
  unfold EndsWell
  cases ending with
  | disconnected => exact absurd rfl he
  | _ => exact hlast

theorem noneFinal_flush {st : Stream σ} (h : NoneFinal st.offered) :
    NoneFinal st.flush.offered := by
  unfold flush
  split
  · exact h
  · dsimp only
    split
    · next text _ _ =>
      have hs := (onward_sliceText st text st.emittedLen (byteLen text)).2.1
      refine NoneFinal.concat ?_ rfl
      rw [hs]
      exact h
    · exact h

theorem endsWell_finish {st : Stream σ} (h : NoneFinal st.offered) {ending : Ending}
    (he : ending ≠ .disconnected) : EndsWell (st.finish ending) := by
  unfold finish
  split
  · exact endsWell_close (noneFinal_flush h) he
  · exact endsWell_close h he

theorem endsWell_stopAt {st : Stream σ} (h : NoneFinal st.offered) (text : Text) (hit : Nat) :
    EndsWell (st.stopAt text hit) := by
  have hs := (onward_sliceText st text 0 hit).2.1
  refine endsWell_finish ?_ nofun
  split
  · rw [hs]
    exact h
  · refine NoneFinal.concat ?_ rfl
    show NoneFinal (st.sliceText text 0 hit).2.offered
    rw [hs]
    exact h

/-- The flag of `emitNew` says that the event it offered is not received. -/
theorem emitNew_offered {st : Stream σ} (h : NoneFinal st.offered) (text : Text) :
    NoneFinal (st.emitNew text).2.offered ∧
      ((st.emitNew text).1 = true →
        ∃ n, st.req.tx.hangup = some n ∧ n < (st.emitNew text).2.offered.length) := by
  have hsame : NoneFinal st.offered ∧
      (false = true → ∃ n, st.req.tx.hangup = some n ∧ n < st.offered.length) := ⟨h, nofun⟩
  unfold emitNew
  split
  · dsimp only
    split
    · obtain ⟨hon, hoffered, _⟩ :=
        onward_sliceText st text st.emittedLen (heldBackLen text st.req.stop)
      refine ⟨?_, ?_⟩
      · refine NoneFinal.concat ?_ rfl
        show NoneFinal (st.sliceText text st.emittedLen _).2.offered
        rw [hoffered]
        exact h
      · intro hgone
        unfold connected at hgone
        dsimp only at hgone
        rw [hon.req_eq] at hgone
        split at hgone
        · cases hgone
        · next n hn =>
          refine ⟨n, hn, ?_⟩
          have hle : ¬ (st.sliceText text st.emittedLen
              (heldBackLen text st.req.stop)).2.offered.length < n := by simpa using hgone
          show n < ((st.sliceText text st.emittedLen _).2.offered ++ [_]).length
          rw [List.length_append, List.length_singleton]
          omega
    · exact hsame
  · exact hsame

theorem endsWell_emitOrFinish {st : Stream σ} (h : NoneFinal st.offered) (hlive : st.ended = none)
    (maxSeqLen : Nat) : EndsWell (st.emitOrFinish maxSeqLen) := by
  unfold emitOrFinish
  split
  · exact endsWell_finish h nofun
  · next text _ =>
    split
    · exact endsWell_stopAt h text _
    · have hon := onward_emitNew st text
      obtain ⟨hnone, hgone⟩ := emitNew_offered h text
      dsimp only
      split
      · next hflag =>
        obtain ⟨n, hn, hlt⟩ := hgone hflag
        exact ⟨hnone, n, (congrArg (fun r : Request σ => r.tx.hangup) hon.req_eq).trans hn, hlt⟩
      · split
        · exact endsWell_finish hnone nofun
        · unfold EndsWell
          rw [hon.ended_eq, hlive]
          exact hnone

theorem endsWell_feed {st : Stream σ} (h : EndsWell st) (maxSeqLen : Nat) (x : Input) :
    EndsWell (st.feed maxSeqLen x) := by
  unfold feed
  split
  · exact h
  · next hlive =>
    have hlive : st.ended = none := by simpa using hlive
    have hnone := h.noneFinal hlive
    split
    · unfold push
      split
      · exact endsWell_finish hnone nofun
      · next t _ =>
        have hgrown : NoneFinal { st with generated := st.generated ++ [t] }.offered := hnone
        exact endsWell_emitOrFinish hgrown hlive maxSeqLen
    · exact endsWell_finish hnone nofun

theorem endsWell_run (maxSeqLen : Nat) (req : Request σ) (inputs : List Input) :
    EndsWell (run maxSeqLen req inputs) := by
  refine List.foldlRecOn inputs _ ?_ fun st h x _ => endsWell_feed h maxSeqLen x
  unfold start
  dsimp only
  split
  · exact endsWell_close (fun _ h => absurd h List.not_mem_nil) nofun
  · exact fun _ h => absurd h List.not_mem_nil

end Stream

end Cognitora.Infer
