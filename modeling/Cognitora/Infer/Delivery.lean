/-
  The end of every request, over whole runs.

  `run_final_event`: at any point of any run, a request that was submitted is once in
  `waiting`, or once in `running`, or its stream has ended, and one of these only. Its channel
  has received a final event only if it has ended, and then as the last event; if it has ended,
  its channel has received the final event unless the client hung up before.
-/
import Cognitora.Infer.Refinement

namespace Cognitora.Infer.Scheduler

open Cognitora.Infer.Stream (NoneFinal LastFinal)

variable {μ Λ σ : Type} {M : BatchModel μ Λ} {s : Scheduler μ σ} {T : Streams σ} {id : Nat}
  {st : Stream σ}

/-- A client that received `events` had hung up by then. -/
def Gone (req : Request σ) (events : List StreamEvent) : Prop :=
  ∃ n, req.tx.hangup = some n ∧ n ≤ events.length

/-- A request is held exactly while its stream has not ended. -/
theorem Sim.mem_iff (h : Sim s T) (hst : T id = some st) :
    id ∈ (s.waiting ++ s.running).map Sequence.id ↔ st.ended = none := by
  refine ⟨?_, h.live id st hst⟩
  intro hm
  obtain ⟨q, hq, rfl⟩ := List.mem_map.mp hm
  obtain ⟨st', hst', hlive, _⟩ := h.matched q hq
  rw [hst] at hst'
  exact Option.some.inj hst' ▸ hlive

theorem Sim.count_eq (h : Sim s T) (hst : T id = some st) :
    (s.waiting.map Sequence.id).count id + (s.running.map Sequence.id).count id =
      if st.ended = none then 1 else 0 := by
  rw [← List.count_append, ← List.map_append]
  split
  · next hlive => exact List.count_eq_one_of_mem h.ids_nodup ((h.mem_iff hst).mpr hlive)
  · next hended => exact List.count_eq_zero.mpr fun hm => hended ((h.mem_iff hst).mp hm)

variable (M) (sample : σ → Λ → List Token → Token × σ) (model : μ) (cfg : SchedulerConfig)
  (acts : List (Action σ))

/-- The request submitted after `k` others is in exactly one of the three places, and its
    channel has received one final event, as the last one, iff it has ended or its client was
    gone. -/
theorem run_final_event {k : Nat} {req : Request σ} (hreq : (submitted acts)[k]? = some req) :
    let s := run M sample model cfg acts
    let events := s.channel (k + 1)
    ∃ st, streams M sample model cfg acts (k + 1) = some st ∧ st.req = req ∧
      (s.waiting.map Sequence.id).count (k + 1) + (s.running.map Sequence.id).count (k + 1) +
        (if st.ended = none then 0 else 1) = 1 ∧
      (NoneFinal events ∨ LastFinal events) ∧
      (LastFinal events → st.ended ≠ none) ∧
      (st.ended ≠ none → LastFinal events ∨ Gone req events) := by
  intro s events
  obtain ⟨inputs, hst, hevents⟩ := exists_stream M sample model cfg acts hreq
  have hends := Stream.endsWell_run M.maxSeqLen req inputs
  have hreq' := Stream.run_req M.maxSeqLen req inputs
  generalize Stream.run M.maxSeqLen req inputs = st at hst hevents hends hreq'
  subst hreq'
  have hevents : events = st.received := hevents
  have hcount := (run_sim M sample model cfg acts).count_eq hst
  refine ⟨st, hst, rfl, ?_, ?_, ?_, ?_⟩
  · show (s.waiting.map Sequence.id).count (k + 1) +
      (s.running.map Sequence.id).count (k + 1) + _ = 1
    rw [hcount]
    split <;> rfl
  · rw [hevents]
    exact hends.noneFinal_or_lastFinal
  · intro hlast hlive
    rw [hevents] at hlast
    exact hlast.not_noneFinal ((hends.noneFinal hlive).mono st.received_initial)
  · intro hended
    rw [hevents]
    rcases hends.received hended with hlast | ⟨n, hn, hlen⟩
    · exact Or.inl hlast
    · exact Or.inr ⟨n, hn, Nat.le_of_eq hlen⟩

/-- One step generates the one token a request may have. -/
theorem run_final_event_plain :
    (submitted [Action.enqueue (Request.plain 2 1), .step])[0]? = some (Request.plain 2 1) ∧
    let s := run (BatchModel.silent 4) (fun _ _ _ => (7, ())) () {}
      [Action.enqueue (Request.plain 2 1), .step]
    ∃ st, streams (BatchModel.silent 4) (fun _ _ _ => (7, ())) () {}
        [Action.enqueue (Request.plain 2 1), .step] 1 = some st ∧ st.req = Request.plain 2 1 ∧
      (s.waiting.map Sequence.id).count 1 + (s.running.map Sequence.id).count 1 +
        (if st.ended = none then 0 else 1) = 1 ∧
      (NoneFinal (s.channel 1) ∨ LastFinal (s.channel 1)) ∧
      (LastFinal (s.channel 1) → st.ended ≠ none) ∧
      (st.ended ≠ none → LastFinal (s.channel 1) ∨ Gone (Request.plain 2 1) (s.channel 1)) :=
  ⟨rfl, run_final_event (BatchModel.silent 4) (fun _ _ _ => (7, ())) () {}
    [.enqueue (Request.plain 2 1), .step] rfl⟩

end Cognitora.Infer.Scheduler
