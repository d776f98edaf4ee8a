/-
  Clients that stop reading (cgn-infer `src/scheduler/mod.rs`, `blocking_send` in `enqueue`,
  `push_token` and `finish`; `src/server/mod.rs`, `start_generation`).

  Every request has a channel of 64 events. The one engine thread sends from inside `step` and
  `enqueue` and waits there while the channel is full. `Engine` is the scheduler with the
  channels: a call to the scheduler leaves the sends it makes, in order, and the next call comes
  when they are through; meanwhile clients read or do not. What was read, what is in the channel
  and what is still to be sent is together what `Scheduler.sent` has for the client
  (`total_run`), and every state of the scheduler is one of the engine (`exists_events`).

  `unstalled_iff_hasRoom`: whichever clients have stopped reading, the next `step` returns and
  the other clients receive their events, exactly if the step sends none of the silent clients
  more than fits its channel. One that has 64 events unread and is sent another stops the engine
  for all (`unread_events_stall_engine`).

  A client that hangs up does so by its number of events, as in `Infer/Scheduler`; a send to it
  then errs at once and is not among the sends here.
-/
import Cognitora.Infer.Refinement
import Cognitora.Lib.Channels

namespace Cognitora.Infer

open Cognitora.Lib (Channels Turn)

variable {μ Λ σ : Type} {M : BatchModel μ Λ} {sample : σ → Λ → List Token → Token × σ}

namespace Scheduler

/-! ## Sends only add to `sent` -/

variable {s : Scheduler μ σ} {l : List (Nat × StreamEvent)}

theorem sent_send (s : Scheduler μ σ) (id : Nat) (tx : Tx) (ev : StreamEvent) :
    s.sent <+: (s.send id tx ev).2.sent := by
  unfold send
  dsimp only
  split
  · split
    · exact List.prefix_rfl
    · exact List.prefix_append _ _
  · exact List.prefix_append _ _

theorem sent_sliceText (s : Scheduler μ σ) (text : Text) (a b : Nat) :
    (s.sliceText text a b).2.sent = s.sent := by
  unfold sliceText
  split <;> rfl

theorem sent_finish (M : BatchModel μ Λ) (s : Scheduler μ σ) (idx : Nat) (reason : FinishReason) :
    s.sent <+: (finish M s idx reason).sent := by
  unfold finish
  split
  · exact List.prefix_rfl
  · refine List.IsPrefix.trans ?_ (sent_send _ _ _ _)
    split
    · split
      · exact List.prefix_rfl
      · split
        · refine List.IsPrefix.trans ?_ (sent_send _ _ _ _)
          rw [sent_sliceText]
          exact List.prefix_rfl
        · exact List.prefix_rfl
    · exact List.prefix_rfl

theorem sent_stopAt (M : BatchModel μ Λ) (s : Scheduler μ σ) (idx : Nat) (q : Sequence σ)
    (text : Text) (hit : Nat) : s.sent <+: (stopAt M s idx q text hit).sent := by
  unfold stopAt
  dsimp only
  refine List.IsPrefix.trans ?_ (sent_finish M _ _ _)
  split
  · rw [sent_sliceText]
  · refine List.IsPrefix.trans ?_ (sent_send _ _ _ _)
    rw [sent_sliceText]

theorem sent_emitNew (s : Scheduler μ σ) (idx : Nat) (q : Sequence σ) (text : Text) :
    s.sent <+: (emitNew s idx q text).2.sent := by
  unfold emitNew
  split
  · dsimp only
    split
    · refine List.IsPrefix.trans ?_ (sent_send _ _ _ _)
      rw [sent_sliceText]
    · exact List.prefix_rfl
  · exact List.prefix_rfl

theorem sent_finishSilent (M : BatchModel μ Λ) (s : Scheduler μ σ) (idx : Nat) :
    (finishSilent M s idx).sent = s.sent := by
  unfold finishSilent
  split <;> rfl

theorem sent_emitOrFinish (M : BatchModel μ Λ) (s : Scheduler μ σ) (idx : Nat) (q : Sequence σ) :
    s.sent <+: (emitOrFinish M s idx q).sent := by
  unfold emitOrFinish
  split
  · exact sent_finish M s idx _
  · next text _ =>
    split
    · exact sent_stopAt M s idx q _ _
    · have hnew := sent_emitNew s idx q text
      dsimp only
      split
      · rw [sent_finishSilent]
        exact hnew
      · split
        · exact hnew.trans (sent_finish M _ _ _)
        · exact hnew

theorem sent_pushToken (M : BatchModel μ Λ) (s : Scheduler μ σ) (idx : Nat) (token : Token) :
    s.sent <+: (pushToken M s idx token).sent := by
  unfold pushToken
  split
  · exact List.prefix_rfl
  · split
    · exact sent_finish M s idx _
    · refine List.IsPrefix.trans ?_ (sent_emitOrFinish M _ idx _)
      exact List.prefix_rfl

theorem keeps_sent (M : BatchModel μ Λ) (l : List (Nat × StreamEvent)) :
    Keeps M fun s : Scheduler μ σ => l <+: s.sent where
  called _ _ h := h
  reserved _ _ h := h
  retuned _ _ _ _ _ _ _ h := h
  pushed s pre _ _ token _ h := h.trans (sent_pushToken M s pre.length token)
  failed s pre _ _ _ h := h.trans (sent_finish M s pre.length _)
  preempted s id h := by
    rcases preempt_cases M s id with ⟨e, _⟩ | ⟨_, _, _, _, _, e⟩
    · rw [e]
      exact h
    · rw [e]
      exact h

theorem sent_act (M : BatchModel μ Λ) (sample : σ → Λ → List Token → Token × σ)
    (s : Scheduler μ σ) (a : Action σ) : s.sent <+: (act M sample s a).sent := by
  cases a with
  | enqueue req =>
    show s.sent <+: (enqueue M s req).sent
    unfold enqueue
    dsimp only
    split
    · exact sent_send { s with nextId := s.nextId + 1 } _ _ _
    · exact List.prefix_rfl
  | step =>
    have hadmit : s.sent <+: (admitWaiting s).sent := by
      refine admitWaiting_rule (P := fun t => s.sent <+: t.sent) (fun t u h ha => ?_)
        List.prefix_rfl
      obtain ⟨_, _, _, _, _, rfl⟩ := admitOne_some ha
      exact h
    have hkeeps := keeps_sent (σ := σ) M s.sent
    exact hkeeps.decodeStep sample (hkeeps.prefillOneChunk sample hadmit)

/-- What an action sends. -/
def sends (M : BatchModel μ Λ) (sample : σ → Λ → List Token → Token × σ) (s : Scheduler μ σ)
    (a : Action σ) : List (Nat × StreamEvent) :=
  (act M sample s a).sent.drop s.sent.length

theorem sent_act_eq (M : BatchModel μ Λ) (sample : σ → Λ → List Token → Token × σ)
    (s : Scheduler μ σ) (a : Action σ) :
    (act M sample s a).sent = s.sent ++ sends M sample s a :=
  List.prefix_iff_eq_append.mp (sent_act M sample s a) |>.symm

end Scheduler

/-! ## The engine and its channels -/

/-- `mpsc::channel(64)`. -/
def channelCap : Nat :=
  64

/-- The scheduler, as the call under way leaves it, and the channels, with the sends of that call
    that are still to be made. -/
structure Engine (μ σ : Type) where
  sched : Scheduler μ σ
  net : Channels Nat StreamEvent

namespace Engine

inductive Event (σ : Type) where
  /-- The engine loop calls the scheduler. -/
  | call (a : Scheduler.Action σ)
  /-- The engine thread tries its next send, or a client reads. -/
  | turn (t : Turn Nat)

variable (M sample)

/-- The engine loop gets to its next call when the last one has returned. -/
def start (e : Engine μ σ) (a : Scheduler.Action σ) : Engine μ σ :=
  if e.net.pending.isEmpty then
    { sched := Scheduler.act M sample e.sched a
      net := { e.net with pending := Scheduler.sends M sample e.sched a } }
  else e

def event (e : Engine μ σ) : Event σ → Engine μ σ
  | .call a => e.start M sample a
  | .turn t => { e with net := e.net.turn channelCap t }

def new (model : μ) (cfg : SchedulerConfig) : Engine μ σ where
  sched := Scheduler.new M model cfg
  net := { pending := [], buffers := fun _ => [], delivered := fun _ => [] }

def run (model : μ) (cfg : SchedulerConfig) (events : List (Event σ)) : Engine μ σ :=
  events.foldl (event M sample) (new M model cfg)

/-- Whatever the turns are from here on, as long as the engine thread and the clients outside `S`
    move again and again and those in `S` do not read: `step` returns, and the clients outside
    `S` receive all their events. -/
def Unstalled (e : Engine μ σ) (S : Set Nat) : Prop :=
  ∀ turns, Channels.Silent S turns → Channels.Fair S turns →
    Channels.Served channelCap (e.start M sample .step).net S turns

/-- What `step` sends to a client in `S` fits its channel with what is in it. -/
def HasRoom (e : Engine μ σ) (S : Set Nat) : Prop :=
  ∀ id ∈ S, ((e.start M sample .step).net.buffers id).length +
    ((e.start M sample .step).net.due id).length ≤ channelCap

variable {M sample} {e : Engine μ σ}

/-! ## The engine against the scheduler -/

theorem start_buffers (e : Engine μ σ) (a : Scheduler.Action σ) :
    (e.start M sample a).net.buffers = e.net.buffers := by
  unfold start
  split <;> rfl

theorem buffers_event_le (h : ∀ id, (e.net.buffers id).length ≤ channelCap) (v : Event σ)
    (id : Nat) : ((e.event M sample v).net.buffers id).length ≤ channelCap := by
  cases v with
  | call a =>
    show ((e.start M sample a).net.buffers id).length ≤ channelCap
    rw [start_buffers]
    exact h id
  | turn t => exact Channels.buffers_turn_le h t id

theorem buffers_run_le (model : μ) (cfg : SchedulerConfig) (events : List (Event σ)) (id : Nat) :
    ((run M sample model cfg events).net.buffers id).length ≤ channelCap := by
  unfold run
  refine List.foldlRecOn events (event M sample)
    (motive := fun e => ∀ id, (e.net.buffers id).length ≤ channelCap) ?_ ?_ id
  · exact fun _ => Nat.zero_le _
  · exact fun e h v _ id => buffers_event_le h v id

theorem total_event (h : ∀ id, e.net.total id = e.sched.channel id) (v : Event σ) (id : Nat) :
    (e.event M sample v).net.total id = (e.event M sample v).sched.channel id := by
  cases v with
  | call a =>
    show (e.start M sample a).net.total id = (e.start M sample a).sched.channel id
    unfold start
    split
    · next hidle =>
      have hid := h id
      unfold Channels.total Channels.due at hid ⊢
      rw [List.isEmpty_iff.mp hidle] at hid
      unfold Scheduler.channel at hid ⊢
      dsimp only
      rw [Scheduler.sent_act_eq, List.filter_append, List.map_append, ← hid]
      simp
    · exact h id
  | turn t =>
    show (e.net.turn channelCap t).total id = e.sched.channel id
    rw [Channels.total_turn, h id]

/-- What a client has read, what waits for it and what is still to be sent to it are the events
    the scheduler has sent it, in order. -/
theorem total_run (model : μ) (cfg : SchedulerConfig) (events : List (Event σ)) (id : Nat) :
    (run M sample model cfg events).net.total id =
      (run M sample model cfg events).sched.channel id := by
  unfold run
  refine List.foldlRecOn events (event M sample)
    (motive := fun e => ∀ id, e.net.total id = e.sched.channel id) ?_ ?_ id
  · exact fun _ => rfl
  · exact fun e h v _ id => total_event h v id

/-- Each send is made and read at once. -/
def through (pending : List (Nat × StreamEvent)) : List (Event σ) :=
  pending.flatMap fun p => [.turn .send, .turn (.read p.1)]

theorem foldl_through (M : BatchModel μ Λ) (sample : σ → Λ → List Token → Token × σ)
    {e : Engine μ σ} (pending : List (Nat × StreamEvent)) (hpending : e.net.pending = pending)
    (hempty : ∀ id, e.net.buffers id = []) :
    ((through pending).foldl (event M sample) e).sched = e.sched ∧
      ((through pending).foldl (event M sample) e).net.pending = [] ∧
      ∀ id, ((through pending).foldl (event M sample) e).net.buffers id = [] := by
  induction pending generalizing e with
  | nil => exact ⟨rfl, hpending, hempty⟩
  | cons p rest ih =>
    obtain ⟨i, ev⟩ := p
    have hroom : (e.net.buffers i).length < channelCap := by
      rw [hempty]
      decide
    have hsend : e.net.turn channelCap .send =
        ⟨rest, Function.update e.net.buffers i [ev], e.net.delivered⟩ := by
      unfold Channels.turn
      rw [hpending]
      dsimp only
      rw [if_pos hroom, hempty, List.nil_append]
    have hread : ((e.net.turn channelCap .send).turn channelCap (.read i)).pending = rest ∧
        ∀ id, ((e.net.turn channelCap .send).turn channelCap (.read i)).buffers id = [] := by
      rw [hsend]
      unfold Channels.turn
      dsimp only
      rw [Function.update_self]
      refine ⟨rfl, fun id => ?_⟩
      by_cases hid : id = i
      · rw [hid]
        exact Function.update_self _ _ _
      · show Function.update (Function.update e.net.buffers i [ev]) i [] id = []
        rw [Function.update_of_ne hid, Function.update_of_ne hid, hempty]
    exact ih (e := { e with net := (e.net.turn channelCap .send).turn channelCap (.read i) })
      hread.1 hread.2

/-- Every run of the scheduler is one of the engine, if the clients read. -/
theorem exists_events (M : BatchModel μ Λ) (sample : σ → Λ → List Token → Token × σ) (model : μ)
    (cfg : SchedulerConfig) (acts : List (Scheduler.Action σ)) :
    ∃ events, (run M sample model cfg events).sched = Scheduler.run M sample model cfg acts ∧
      (run M sample model cfg events).net.pending = [] ∧
      ∀ id, (run M sample model cfg events).net.buffers id = [] := by
  induction acts using List.reverseRecOn with
  | nil => exact ⟨[], rfl, rfl, fun _ => rfl⟩
  | append_singleton acts a ih =>
    obtain ⟨events, hsched, hpending, hempty⟩ := ih
    have hstart : (run M sample model cfg events).start M sample a =
        ⟨Scheduler.act M sample (run M sample model cfg events).sched a,
          { (run M sample model cfg events).net with
            pending := Scheduler.sends M sample (run M sample model cfg events).sched a }⟩ := by
      unfold start
      rw [hpending]
      rfl
    have hnone : ∀ id, ((run M sample model cfg events).start M sample a).net.buffers id = [] :=
      fun id => by rw [start_buffers, hempty]
    obtain ⟨hs, hp, hb⟩ := foldl_through M sample _ rfl hnone
    refine ⟨events ++ .call a ::
      through ((run M sample model cfg events).start M sample a).net.pending, ?_⟩
    have hrun : run M sample model cfg (events ++ .call a ::
          through ((run M sample model cfg events).start M sample a).net.pending) =
        (through ((run M sample model cfg events).start M sample a).net.pending).foldl
          (event M sample) ((run M sample model cfg events).start M sample a) := by
      rw [run, List.foldl_append, ← run, List.foldl_cons]
      rfl
    rw [hrun]
    refine ⟨?_, hp, hb⟩
    rw [hs, hstart, Scheduler.run, List.foldl_concat, ← Scheduler.run, ← hsched]

/-! ## Silent clients -/

theorem unstalled_iff_hasRoom (hle : ∀ id, (e.net.buffers id).length ≤ channelCap)
    (S : Set Nat) : e.Unstalled M sample S ↔ e.HasRoom M sample S := by
  have hle : ∀ id, ((e.start M sample .step).net.buffers id).length ≤ channelCap := by
    rwa [start_buffers]
  constructor
  · intro h
    have hserved := h _ (Channels.silent_roundRobin S) (Channels.fair_roundRobin S)
    exact (Channels.served_iff hle (by decide) (Channels.silent_roundRobin S)
      (Channels.fair_roundRobin S)).mp hserved
  · intro hroom turns hsilent hfair
    exact (Channels.served_iff hle (by decide) hsilent hfair).mpr hroom

/-- In every state of a run, whichever clients have stopped reading: `step` returns and the
    others receive their events, exactly if what it sends to the silent ones fits. -/
theorem run_unstalled_iff (M : BatchModel μ Λ) (sample : σ → Λ → List Token → Token × σ)
    (model : μ) (cfg : SchedulerConfig) (events : List (Event σ)) (S : Set Nat) :
    (run M sample model cfg events).Unstalled M sample S ↔
      (run M sample model cfg events).HasRoom M sample S :=
  unstalled_iff_hasRoom (buffers_run_le model cfg events) S

/-- Two requests; in each of 64 steps the first client reads one event, the second none. -/
def oneReads : List (Event Unit) :=
  .call (.enqueue (Request.plain 1 100)) :: .call (.enqueue (Request.plain 1 100)) ::
    (List.replicate 64 [Event.call .step, .turn .send, .turn .send, .turn .send,
      .turn (.read 1)]).flatten

/-- The next step sends the second client its 65th event, before the first client's next one. -/
theorem unread_events_stall_engine :
    ¬ ∀ (M : BatchModel Unit Unit) (sample : Unit → Unit → List Token → Token × Unit)
        (cfg : SchedulerConfig) (events : List (Event Unit)) (S : Set Nat),
      (run M sample () cfg events).Unstalled M sample S := by
  intro h
  have hroom := (unstalled_iff_hasRoom (buffers_run_le () { kvPoolTokens := 1024 } oneReads) {2}).mp
    (h (BatchModel.silent 200) (fun _ _ _ => (7, ())) { kvPoolTokens := 1024 } oneReads {2})
  exact absurd (hroom 2 rfl) (by decide +kernel)

end Engine

end Cognitora.Infer
