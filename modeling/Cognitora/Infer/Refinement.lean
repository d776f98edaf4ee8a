/-
  The scheduler against its requests, one by one.

  `Tells` relates the scheduler, as far as one request is concerned, to the request's
  `Stream`: its channel has received what the stream's client receives, and the other channels
  are as they were. Each operation that `step` performs on one running sequence is an
  operation of its stream (`finish_tells`, `pushToken_tells`). `Sim` says this of all requests
  at once, and that a request is queued or running exactly while its stream has not ended.

  `stepInputs` are the inputs of one iteration: the tokens sampled and the failed calls, in the
  order in which the scheduler deals with them. `streams` feeds the streams of a run with them
  next to the run, as a ghost state, and `run_sim` says that the scheduler does what they do.
  Everything a client can see of its request is then a matter of one stream (`exists_stream`).
-/
import Cognitora.Infer.Shape
import Cognitora.Infer.Stream
import Cognitora.Lib.Run

namespace Cognitora.Infer.Scheduler

open Cognitora.Lib

variable {μ Λ σ : Type}

/-- What the channel of request `id` has received. -/
def channel (s : Scheduler μ σ) (id : Nat) : List StreamEvent :=
  (s.sent.filter fun e => e.1 == id).map Prod.snd

/-- The sequence of a stream that has not ended. -/
structure Matches (q : Sequence σ) (st : Stream σ) : Prop where
  req_eq : q.req = st.req
  promptLen_eq : q.promptLen = st.req.promptTokens.length
  generated_eq : q.generated = st.generated
  emittedLen_eq : q.emittedLen = st.emittedLen

/-- The streams of the requests, by id. -/
abbrev Streams (σ : Type) :=
  Nat → Option (Stream σ)

/-- The clients have received what the streams `T` say, except that the stream of `id` is `st`. -/
structure Tells (T : Streams σ) (id : Nat) (s : Scheduler μ σ) (st : Stream σ) : Prop where
  own : s.channel id = st.received
  others : ∀ j, j ≠ id → s.channel j = (T j).elim [] Stream.received
  slices : s.badSlice = true ↔
    (∃ j st', j ≠ id ∧ T j = some st' ∧ st'.badSlice = true) ∨ st.badSlice = true

variable {T : Streams σ} {s t : Scheduler μ σ} {id : Nat} {st st' : Stream σ}
  {pre post : List (Sequence σ)} {q : Sequence σ}

theorem Matches.onward (h : Matches q st) (hon : st.Onward st')
    (hlen : st'.emittedLen = st.emittedLen) : Matches q st' where
  req_eq := h.req_eq.trans hon.req_eq.symm
  promptLen_eq := by rw [hon.req_eq]; exact h.promptLen_eq
  generated_eq := h.generated_eq.trans hon.generated_eq.symm
  emittedLen_eq := h.emittedLen_eq.trans hlen.symm

theorem Matches.budget_eq (h : Matches q st) (n : Nat) : q.budget n = st.budget n := by
  unfold Sequence.budget Stream.budget
  rw [h.req_eq, h.promptLen_eq]

/-! ## Sending and slicing -/

theorem channel_concat (s : Scheduler μ σ) (id j : Nat) (ev : StreamEvent) :
    channel { s with sent := s.sent ++ [(id, ev)] } j =
      if id = j then s.channel j ++ [ev] else s.channel j := by
  unfold channel
  rw [List.filter_append, List.map_append]
  by_cases h : id = j
  · rw [if_pos h, List.filter_cons_of_pos (by simpa using h)]
    rfl
  · rw [if_neg h, List.filter_cons_of_neg (by simpa using h)]
    simp

/-- The relation looks at the channels and the slices only. -/
theorem Tells.congr (h : Tells T id s st) (hsent : t.sent = s.sent)
    (hslice : t.badSlice = s.badSlice) (hoffered : st'.offered = st.offered)
    (hreq : st'.req = st.req) (hbad : st'.badSlice = st.badSlice) : Tells T id t st' := by
  have hchannel : t.channel = s.channel := by
    funext j
    rw [channel, hsent, channel]
  refine ⟨?_, ?_, ?_⟩
  · rw [hchannel, h.own, Stream.received, Stream.received, hoffered, hreq]
  · rw [hchannel]
    exact h.others
  · rw [hslice, hbad]
    exact h.slices

/-- `blocking_send` succeeds while the client is connected, and the client receives the event
    then. -/
theorem Tells.send (h : Tells T id s st) (ev : StreamEvent) :
    (s.send id st.req.tx ev).1 = st.connected ∧
      Tells T id (s.send id st.req.tx ev).2 { st with offered := st.offered ++ [ev] } := by
  have hcount : (s.sent.filter fun e => e.1 == id).length = st.received.length := by
    rw [← h.own, channel, List.length_map]
  have hsend : ∀ recv, { st with offered := st.offered ++ [ev] }.received = recv ++ [ev] →
      st.received = recv →
      Tells T id { s with sent := s.sent ++ [(id, ev)] }
        { st with offered := st.offered ++ [ev] } := by
    intro recv hnew hold
    refine ⟨?_, ?_, h.slices⟩
    · rw [channel_concat, if_pos rfl, h.own, hnew, hold]
    · intro j hj
      rw [channel_concat, if_neg (Ne.symm hj)]
      exact h.others j hj
  unfold Scheduler.send Stream.connected
  rw [hcount]
  cases hh : st.req.tx.hangup with
  | none =>
    have hrec : ∀ o, { st with offered := o }.received = o := by
      intro o
      rw [Stream.received]
      dsimp only
      rw [hh]
    exact ⟨rfl, hsend st.offered (hrec _) (hrec _)⟩
  | some n =>
    have hrec : ∀ o, { st with offered := o }.received = o.take n := by
      intro o
      rw [Stream.received]
      dsimp only
      rw [hh]
    have hlen : st.received.length = min n st.offered.length := by
      rw [show st.received = st.offered.take n from hrec st.offered, List.length_take]
    dsimp only
    rw [hlen]
    by_cases hn : n ≤ st.offered.length
    · rw [if_pos (by omega), decide_eq_false (by omega)]
      refine ⟨rfl, h.own.trans ((hrec st.offered).trans ?_), h.others, h.slices⟩
      rw [hrec, List.take_append_of_le_length hn]
    · rw [if_neg (by omega), decide_eq_true (by omega)]
      refine ⟨rfl, hsend st.offered ?_ ?_⟩
      · rw [hrec, List.take_of_length_le (by simp; omega)]
      · exact (hrec st.offered).trans (List.take_of_length_le (by omega))

theorem Tells.sliceText (h : Tells T id s st) (text : Text) (a b : Nat) :
    (s.sliceText text a b).1 = (st.sliceText text a b).1 ∧
      Tells T id (s.sliceText text a b).2 (st.sliceText text a b).2 := by
  unfold Scheduler.sliceText Stream.sliceText
  cases slice text a b with
  | some d => exact ⟨rfl, h⟩
  | none => exact ⟨rfl, h.own, h.others, by simp⟩

/-! ## Finishing a sequence -/

variable (M : BatchModel μ Λ)

/-- An event of the request is sent. -/
theorem Tells.offer (h : Tells T q.id s st) (hm : Matches q st) (delta : Text)
    (reason : Option FinishReason) :
    let sent := s.send q.id q.req.tx
      { delta := delta, finishReason := reason,
        promptTokens := q.promptLen, completionTokens := q.generated.length }
    sent.1 = st.connected ∧ Tells T q.id sent.2 (st.offer delta reason) := by
  rw [hm.req_eq, hm.promptLen_eq, hm.generated_eq]
  exact h.send _

/-- The held-back text that `finish` sends at the length budget. -/
theorem flush_tells (h : Tells T q.id s st) (hm : Matches q st) :
    Tells T q.id
      (match q.req.tokenizer q.generated with
        | none => s
        | some text =>
          if q.emittedLen < byteLen text then
            ((s.sliceText text q.emittedLen (byteLen text)).2.send q.id q.req.tx
              { delta := (s.sliceText text q.emittedLen (byteLen text)).1, finishReason := none,
                promptTokens := q.promptLen, completionTokens := q.generated.length }).2
          else s) st.flush := by
  unfold Stream.flush
  rw [hm.req_eq, hm.generated_eq, hm.emittedLen_eq]
  cases st.req.tokenizer st.generated with
  | none => exact h
  | some text =>
    dsimp only
    split
    · obtain ⟨hd, hslice⟩ := h.sliceText text st.emittedLen (byteLen text)
      obtain ⟨hon, _, hlen⟩ := st.onward_sliceText text st.emittedLen (byteLen text)
      rw [hd, ← hm.req_eq, ← hm.generated_eq]
      exact (hslice.offer (hm.onward hon hlen) _ none).2
    · exact h

theorem finish_tells (hr : s.running = pre ++ q :: post) (hm : Matches q st)
    (h : Tells T q.id s st) {ending : Ending} {reason : FinishReason}
    (hreason : ending.reason = some reason) :
    Tells T q.id (finish M s pre.length reason) (st.finish ending) := by
  have hrem : Tells T q.id (removeRunning M s pre.length q) st := h.congr rfl rfl rfl rfl rfl
  unfold Scheduler.finish Stream.finish Stream.close
  rw [hr, getElem?_mid, hreason]
  dsimp only
  by_cases hl : reason = .length
  · rw [if_pos hl, if_pos (congrArg some hl)]
    obtain ⟨hon, hlen⟩ := st.onward_flush
    have hflush := flush_tells hrem hm
    exact (hflush.offer (hm.onward hon hlen) [] (some reason)).2.congr rfl rfl rfl rfl rfl
  · rw [if_neg hl, if_neg (fun he => hl (Option.some.inj he))]
    exact (hrem.offer hm [] (some reason)).2.congr rfl rfl rfl rfl rfl

/-! ## Appending a token -/

theorem stopAt_tells (hr : s.running = pre ++ q :: post) (hm : Matches q st)
    (h : Tells T q.id s st) (text : Text) (hit : Nat) :
    Tells T q.id (stopAt M s pre.length q text hit) (st.stopAt text hit) := by
  obtain ⟨hd, hslice⟩ := h.sliceText text 0 hit
  obtain ⟨hon, _, hlen⟩ := st.onward_sliceText text 0 hit
  have hm1 := hm.onward hon hlen
  have hr1 : (s.sliceText text 0 hit).2.running = pre ++ q :: post :=
    (running_of_core (sliceText_core s text 0 hit)).trans hr
  unfold Scheduler.stopAt Stream.stopAt
  dsimp only
  rw [hd, hm1.emittedLen_eq]
  split
  · exact finish_tells M hr1 hm1 hslice rfl
  · -- the mark moves to the hit before the text is sent
    have hm2 : Matches { q with emittedLen := hit }
        { (st.sliceText text 0 hit).2 with emittedLen := hit } :=
      ⟨hm1.req_eq, hm1.promptLen_eq, hm1.generated_eq, rfl⟩
    have hmark : Tells T q.id { (s.sliceText text 0 hit).2 with
        running := pre ++ { q with emittedLen := hit } :: post }
        { (st.sliceText text 0 hit).2 with emittedLen := hit } :=
      hslice.congr rfl rfl rfl rfl rfl
    rw [hr1, set_mid]
    have hsent := (Tells.offer (q := { q with emittedLen := hit }) hmark hm2
      ((dropBytes (st.sliceText text 0 hit).1 (st.sliceText text 0 hit).2.emittedLen).getD [])
      none).2
    refine finish_tells M (q := { q with emittedLen := hit }) (?_ : _ = pre ++ _ :: post) ?_ hsent
      rfl
    · exact running_of_core (send_core _ _ _ _)
    · exact ⟨hm2.req_eq, hm2.promptLen_eq, hm2.generated_eq, hm2.emittedLen_eq⟩

/-- The emission branch, with the mark where the stream has it. -/
theorem emitNew_tells (hr : s.running = pre ++ q :: post) (hm : Matches q st)
    (h : Tells T q.id s st) (text : Text) :
    (emitNew s pre.length q text).1 = (st.emitNew text).1 ∧
      Tells T q.id (emitNew s pre.length q text).2 (st.emitNew text).2 ∧
      (emitNew s pre.length q text).2.core = { s with running :=
        pre ++ { q with emittedLen := (st.emitNew text).2.emittedLen } :: post }.core := by
  have hsame : s.core = { s with
      running := pre ++ { q with emittedLen := st.emittedLen } :: post }.core := by
    rw [core_eq_iff, ← hm.emittedLen_eq]
    exact ⟨rfl, rfl, rfl, rfl, hr, rfl, rfl⟩
  unfold Scheduler.emitNew Stream.emitNew
  rw [hm.emittedLen_eq, show q.req.stop = st.req.stop by rw [hm.req_eq]]
  split
  · dsimp only
    split
    · generalize hn : heldBackLen text st.req.stop = n
      obtain ⟨hd, hslice⟩ := h.sliceText text st.emittedLen n
      obtain ⟨hon, _, hlen⟩ := st.onward_sliceText text st.emittedLen n
      have hcore := sliceText_core s text st.emittedLen n
      have hm1 : Matches { q with emittedLen := n }
          { (st.sliceText text st.emittedLen n).2 with emittedLen := n } :=
        let hm1 := hm.onward hon hlen
        ⟨hm1.req_eq, hm1.promptLen_eq, hm1.generated_eq, rfl⟩
      have hmark : Tells T q.id { (s.sliceText text st.emittedLen n).2 with
          running := pre ++ { q with emittedLen := n } :: post }
          { (st.sliceText text st.emittedLen n).2 with emittedLen := n } :=
        hslice.congr rfl rfl rfl rfl rfl
      rw [running_of_core hcore, hr, set_mid, hd]
      have hsent := Tells.offer (q := { q with emittedLen := n }) hmark hm1
        (st.sliceText text st.emittedLen n).1 none
      refine ⟨congrArg (!·) hsent.1, hsent.2, ?_⟩
      rw [send_core]
      exact core_setRunning hcore _
    · exact ⟨rfl, h, hsame⟩
  · exact ⟨rfl, h, hsame⟩

/-- What becomes of `q` when its stream becomes `st`: it is taken out if the stream ended, and
    else replaced by a sequence that matches the stream. -/
def Settled (M : BatchModel μ Λ) (s : Scheduler μ σ) (pre : List (Sequence σ)) (q : Sequence σ)
    (post : List (Sequence σ)) (st : Stream σ) (t : Scheduler μ σ) : Prop :=
  (st.ended ≠ none ∧ t.core = (removeRunning M s pre.length q).core) ∨
  (st.ended = none ∧ ∃ r, r.id = q.id ∧ Matches r st ∧
    t.core = { s with running := pre ++ r :: post }.core)

theorem finish_settled (hr : s.running = pre ++ q :: post) (st : Stream σ) (ending : Ending)
    (reason : FinishReason) :
    Settled M s pre q post (st.finish ending) (finish M s pre.length reason) :=
  Or.inl ⟨by rw [Stream.finish_ended]; nofun, finish_core M hr reason⟩

theorem emitOrFinish_tells (hr : s.running = pre ++ q :: post) (hm : Matches q st)
    (hlive : st.ended = none) (h : Tells T q.id s st) :
    Tells T q.id (emitOrFinish M s pre.length q) (st.emitOrFinish M.maxSeqLen) ∧
      Settled M s pre q post (st.emitOrFinish M.maxSeqLen) (emitOrFinish M s pre.length q) := by
  unfold Scheduler.emitOrFinish Stream.emitOrFinish
  rw [show q.req.tokenizer q.generated = st.req.tokenizer st.generated by
    rw [hm.req_eq, hm.generated_eq], show q.req.stop = st.req.stop by rw [hm.req_eq],
    hm.budget_eq, show q.generated.length = st.generated.length by rw [hm.generated_eq]]
  cases st.req.tokenizer st.generated with
  | none => exact ⟨finish_tells M hr hm h rfl, finish_settled M hr _ _ _⟩
  | some text =>
    dsimp only
    cases (st.req.stop.filterMap (find text)).min? with
    | some hit =>
      refine ⟨stopAt_tells M hr hm h text hit, Or.inl ⟨?_, stopAt_core M hr text hit⟩⟩
      rw [Stream.stopAt_ended]
      nofun
    | none =>
      obtain ⟨hflag, htells, hcore⟩ := emitNew_tells hr hm h text
      have hon := st.onward_emitNew text
      have hr1 := running_of_core hcore
      have hm1 : Matches { q with emittedLen := (st.emitNew text).2.emittedLen }
          (st.emitNew text).2 := by
        refine ⟨hm.req_eq.trans hon.req_eq.symm, ?_, hm.generated_eq.trans hon.generated_eq.symm,
          rfl⟩
        rw [hon.req_eq]
        exact hm.promptLen_eq
      have hrem := removeRunning_replaced M
        (r := { q with emittedLen := (st.emitNew text).2.emittedLen }) hr rfl hcore
      dsimp only
      rw [hflag]
      split
      · -- the client is gone: nothing more is sent
        rw [finishSilent_mid M hr1]
        exact ⟨htells.congr rfl rfl rfl rfl rfl, Or.inl ⟨nofun, hrem⟩⟩
      · split
        · refine ⟨finish_tells M hr1 hm1 htells rfl, Or.inl ⟨?_, ?_⟩⟩
          · rw [Stream.finish_ended]
            nofun
          · exact (finish_core M hr1 _).trans hrem
        · exact ⟨htells, Or.inr ⟨hon.ended_eq.trans hlive,
            { q with emittedLen := (st.emitNew text).2.emittedLen }, rfl, hm1, hcore⟩⟩

theorem pushToken_tells (hr : s.running = pre ++ q :: post) (hm : Matches q st)
    (hlive : st.ended = none) (h : Tells T q.id s st) (token : Token) :
    Tells T q.id (pushToken M s pre.length token) (st.push M.maxSeqLen token) ∧
      Settled M s pre q post (st.push M.maxSeqLen token) (pushToken M s pre.length token) := by
  unfold Scheduler.pushToken Stream.push
  rw [hr, getElem?_mid, show st.req.eosTokenId = q.req.eosTokenId by rw [hm.req_eq]]
  dsimp only
  split
  · exact ⟨finish_tells M hr hm h rfl, finish_settled M hr _ _ _⟩
  · rw [set_mid]
    have hgrown : Matches (grown q token) { st with generated := st.generated ++ [token] } := by
      refine ⟨hm.req_eq, hm.promptLen_eq, ?_, hm.emittedLen_eq⟩
      show q.generated ++ [token] = st.generated ++ [token]
      rw [hm.generated_eq]
    obtain ⟨htells, hsettled⟩ := emitOrFinish_tells M (q := grown q token)
      (s := { s with running := pre ++ grown q token :: post }) rfl hgrown hlive
      (h.congr rfl rfl rfl rfl rfl)
    refine ⟨htells, ?_⟩
    rcases hsettled with ⟨hended, e⟩ | ⟨hon, r, hid, hmr, e⟩
    · exact Or.inl ⟨hended, e.trans (removeRunning_replaced M hr rfl rfl)⟩
    · exact Or.inr ⟨hon, r, hid, hmr, e⟩

/-! ## All requests -/

/-- The scheduler does what the streams `T` do, and holds those that have not ended. -/
structure Sim (s : Scheduler μ σ) (T : Streams σ) : Prop where
  channel_eq : ∀ id, s.channel id = (T id).elim [] Stream.received
  slices : s.badSlice = true ↔ ∃ id st, T id = some st ∧ st.badSlice = true
  nextId_pos : 0 < s.nextId
  submitted : ∀ id, T id ≠ none ↔ 0 < id ∧ id < s.nextId
  ids_nodup : ((s.waiting ++ s.running).map Sequence.id).Nodup
  matched : ∀ q ∈ s.waiting ++ s.running, ∃ st, T q.id = some st ∧ st.ended = none ∧ Matches q st
  live : ∀ id st, T id = some st → st.ended = none → id ∈ (s.waiting ++ s.running).map Sequence.id

/-- What the streams know of a sequence. -/
def outline (q : Sequence σ) : Nat × Request σ × Nat × List Token × Nat :=
  (q.id, q.req, q.promptLen, q.generated, q.emittedLen)

theorem Matches.of_outline {r : Sequence σ} (h : Matches r st) (he : outline r = outline q) :
    Matches q st := by
  simp only [outline, Prod.mk.injEq] at he
  obtain ⟨_, hreq, hlen, hgen, hem⟩ := he
  exact ⟨hreq ▸ h.req_eq, hlen ▸ h.promptLen_eq, hgen ▸ h.generated_eq, hem ▸ h.emittedLen_eq⟩

/-- Sequences may be moved between the lists, and change their phase. -/
theorem Sim.perm (h : Sim s T)
    (hperm : ((t.waiting ++ t.running).map outline).Perm ((s.waiting ++ s.running).map outline))
    (hnext : t.nextId = s.nextId) (hsent : t.sent = s.sent) (hbad : t.badSlice = s.badSlice) :
    Sim t T := by
  have hids : ((t.waiting ++ t.running).map Sequence.id).Perm
      ((s.waiting ++ s.running).map Sequence.id) := by
    have := hperm.map Prod.fst
    rwa [List.map_map, List.map_map] at this
  constructor
  · intro id
    rw [← h.channel_eq id, channel, hsent, channel]
  · rw [hbad]
    exact h.slices
  · rw [hnext]
    exact h.nextId_pos
  · rw [hnext]
    exact h.submitted
  · exact hids.nodup_iff.mpr h.ids_nodup
  · intro q hq
    obtain ⟨r, hr, he⟩ := List.mem_map.mp (hperm.subset (List.mem_map_of_mem hq))
    obtain ⟨st, hst, hlive, hm⟩ := h.matched r hr
    have hid : r.id = q.id := congrArg Prod.fst he
    exact ⟨st, hid ▸ hst, hlive, hm.of_outline he⟩
  · intro id st hst hlive
    exact hids.symm.subset (h.live id st hst hlive)

theorem Sim.tells (h : Sim s T) (hst : T id = some st) : Tells T id s st := by
  refine ⟨?_, fun j _ => h.channel_eq j, h.slices.trans ?_⟩
  · rw [h.channel_eq, hst]
    rfl
  · constructor
    · rintro ⟨j, st', hj, hbad⟩
      by_cases hne : j = id
      · rw [hne, hst] at hj
        exact Or.inr (Option.some.inj hj ▸ hbad)
      · exact Or.inl ⟨j, st', hne, hj, hbad⟩
    · rintro (⟨j, st', _, hj, hbad⟩ | hbad)
      · exact ⟨j, st', hj, hbad⟩
      · exact ⟨id, st, hst, hbad⟩

/-- The stream of `id` becomes `st`. If it has ended, the sequences are those of the other
    streams; else there is one more. -/
theorem Sim.update (rest : List (Sequence σ)) (htells : Tells T id t st)
    (hnodup : (id :: rest.map Sequence.id).Nodup)
    (hmatched : ∀ r ∈ rest, ∃ st', T r.id = some st' ∧ st'.ended = none ∧ Matches r st')
    (hothers : ∀ j st', j ≠ id → T j = some st' → st'.ended = none → j ∈ rest.map Sequence.id)
    (hpos : 0 < t.nextId) (hsubmitted : ∀ j, T j ≠ none ∨ j = id ↔ 0 < j ∧ j < t.nextId)
    (hlists : (st.ended ≠ none ∧ (t.waiting ++ t.running).Perm rest) ∨
      (st.ended = none ∧ ∃ r, r.id = id ∧ Matches r st ∧
        (t.waiting ++ t.running).Perm (r :: rest))) :
    Sim t (Function.update T id (some st)) := by
  rw [List.nodup_cons] at hnodup
  have hne : ∀ r ∈ rest, r.id ≠ id := by
    intro r hm he
    exact hnodup.1 (he ▸ List.mem_map_of_mem hm)
  constructor
  · intro j
    by_cases hj : j = id
    · rw [hj, Function.update_self, htells.own]
      rfl
    · rw [Function.update_of_ne hj]
      exact htells.others j hj
  · rw [htells.slices]
    constructor
    · rintro (⟨j, st', hj, hst', hbad⟩ | hbad)
      · exact ⟨j, st', by rw [Function.update_of_ne hj]; exact hst', hbad⟩
      · exact ⟨id, st, Function.update_self _ _ _, hbad⟩
    · rintro ⟨j, st', hst', hbad⟩
      by_cases hj : j = id
      · rw [hj, Function.update_self] at hst'
        exact Or.inr (Option.some.inj hst' ▸ hbad)
      · rw [Function.update_of_ne hj] at hst'
        exact Or.inl ⟨j, st', hj, hst', hbad⟩
  · exact hpos
  · intro j
    rw [← hsubmitted j]
    by_cases hj : j = id
    · rw [hj, Function.update_self]
      exact ⟨fun _ => Or.inr rfl, fun _ => nofun⟩
    · rw [Function.update_of_ne hj, or_iff_left hj]
  · rcases hlists with ⟨_, hperm⟩ | ⟨_, r, hid, _, hperm⟩
    · exact (hperm.map Sequence.id).nodup_iff.mpr hnodup.2
    · rw [(hperm.map Sequence.id).nodup_iff, List.map_cons, hid, List.nodup_cons]
      exact hnodup
  · have hkept : ∀ r ∈ rest, ∃ st',
        Function.update T id (some st) r.id = some st' ∧ st'.ended = none ∧ Matches r st' := by
      intro r hm
      rw [Function.update_of_ne (hne r hm)]
      exact hmatched r hm
    intro x hx
    rcases hlists with ⟨_, hperm⟩ | ⟨hlive, r, hid, hm, hperm⟩
    · exact hkept x (hperm.subset hx)
    · rcases List.mem_cons.mp (hperm.subset hx) with rfl | hx
      · exact ⟨st, by rw [hid, Function.update_self], hlive, hm⟩
      · exact hkept x hx
  · intro j st' hst' hlive'
    by_cases hj : j = id
    · rw [hj, Function.update_self] at hst'
      rcases hlists with ⟨hended, _⟩ | ⟨_, r, hid, _, hperm⟩
      · exact absurd (Option.some.inj hst' ▸ hlive') hended
      · rw [hj, ← hid]
        exact (hperm.map _).symm.subset List.mem_cons_self
    · rw [Function.update_of_ne hj] at hst'
      have hm := hothers j st' hj hst' hlive'
      rcases hlists with ⟨_, hperm⟩ | ⟨_, r, _, _, hperm⟩
      · exact (hperm.map _).symm.subset hm
      · exact (hperm.map _).symm.subset (List.mem_cons_of_mem _ hm)

/-- One stream moved on, and its sequence with it. -/
theorem Sim.settled (h : Sim s T) (hr : s.running = pre ++ q :: post) (htells : Tells T q.id t st)
    (hsettled : Settled M s pre q post st t) : Sim t (Function.update T q.id (some st)) := by
  have hperm := perm_mid s.waiting hr
  obtain ⟨st₀, hst₀, _⟩ := h.matched q (List.mem_append_right _ (mem_mid hr))
  have hnext : t.nextId = s.nextId := by
    rcases hsettled with ⟨_, e⟩ | ⟨_, _, _, _, e⟩ <;> exact (core_eq_iff.mp e).2.2.2.2.2.1
  refine Sim.update (s.waiting ++ (pre ++ post)) htells ?_ ?_ ?_ (hnext ▸ h.nextId_pos) ?_ ?_
  · rw [← List.map_cons (f := Sequence.id), ← (hperm.map _).nodup_iff]
    exact h.ids_nodup
  · intro r hm
    exact h.matched r (hperm.symm.subset (List.mem_cons_of_mem _ hm))
  · intro j st' hj hst' hlive
    rcases List.mem_cons.mp ((hperm.map _).subset (h.live j st' hst' hlive)) with he | hm
    · exact absurd he hj
    · exact hm
  · intro j
    rw [hnext, ← h.submitted j]
    refine ⟨?_, Or.inl⟩
    rintro (hj | rfl)
    · exact hj
    · rw [hst₀]
      nofun
  · rcases hsettled with ⟨hended, e⟩ | ⟨hlive, r, hid, hm, e⟩
    · rw [removeRunning_mid M hr] at e
      obtain ⟨_, _, _, ew, er, _⟩ := core_eq_iff.mp e
      rw [ew, er]
      exact Or.inl ⟨hended, List.Perm.refl _⟩
    · obtain ⟨_, _, _, ew, er, _⟩ := core_eq_iff.mp e
      rw [ew, er]
      exact Or.inr ⟨hlive, r, hid, hm,
        perm_mid (s := { s with running := pre ++ r :: post }) s.waiting rfl⟩

/-! ## Inputs -/

/-- An input reaches the stream with that id. -/
def Streams.feed (maxSeqLen : Nat) (T : Streams σ) (x : Nat × Input) : Streams σ :=
  Function.update T x.1 ((T x.1).map fun st => st.feed maxSeqLen x.2)

theorem Streams.feed_eq {T : Streams σ} (hst : T id = some st) (maxSeqLen : Nat) (x : Input) :
    T.feed maxSeqLen (id, x) = Function.update T id (some (st.feed maxSeqLen x)) := by
  unfold Streams.feed
  rw [hst]
  rfl

theorem Sim.pushToken (h : Sim s T) (hr : s.running = pre ++ q :: post) (token : Token) :
    Sim (pushToken M s pre.length token) (T.feed M.maxSeqLen (q.id, .token token)) := by
  obtain ⟨st, hst, hlive, hm⟩ := h.matched q (List.mem_append_right _ (mem_mid hr))
  obtain ⟨htells, hsettled⟩ := pushToken_tells M hr hm hlive (h.tells hst) token
  rw [Streams.feed_eq hst, Stream.feed_token hlive]
  exact h.settled M hr htells hsettled

theorem Sim.fail (h : Sim s T) (hr : s.running = pre ++ q :: post) :
    Sim (finish M s pre.length .error) (T.feed M.maxSeqLen (q.id, .failure)) := by
  obtain ⟨st, hst, hlive, hm⟩ := h.matched q (List.mem_append_right _ (mem_mid hr))
  rw [Streams.feed_eq hst, Stream.feed_failure hlive]
  exact h.settled M hr (finish_tells M hr hm (h.tells hst) rfl) (finish_settled M hr _ _ _)

variable (sample : σ → Λ → List Token → Token × σ)

/-- What reaches `q` when the runtime returns logits for it, or fails. -/
def inputFor (q : Sequence σ) : Option Λ → Nat × Input
  | some logits => (q.id, .token (sample q.sampler logits q.tokens).1)
  | none => (q.id, .failure)

/-- The input of `prefill_one_chunk`; there is none if the chunk is not the last one. -/
def prefillInputs (s : Scheduler μ σ) : List (Nat × Input) :=
  match prefillTarget s.running with
  | none => []
  | some (_, q, done) =>
    match prefillReply M s q done with
    | some (some logits) => [inputFor sample q (some logits)]
    | some none => []
    | none => [inputFor sample q none]

/-- The inputs of `decode_step`, last sequence first. -/
def decodeInputs (s : Scheduler μ σ) : List (Nat × Input) :=
  ((decodeReplies M (makeRoom M s)).map fun r => inputFor sample r.1 r.2).reverse

/-- The inputs of one iteration. -/
def stepInputs (s : Scheduler μ σ) : List (Nat × Input) :=
  let s := admitWaiting s
  prefillInputs M sample s ++ decodeInputs M sample (prefillOneChunk M sample s)

/-! ## The iteration -/

theorem Sim.enqueue (h : Sim s T) (req : Request σ) : Sim (enqueue M s req)
    (Function.update T s.nextId (some (Stream.start M.maxSeqLen req))) := by
  -- the new id has no stream, and its channel is empty
  have hnone : T s.nextId = none := by
    by_contra hne
    exact absurd ((h.submitted _).mp hne).2 (Nat.lt_irrefl _)
  have hold : ∀ r ∈ s.waiting ++ s.running, r.id ≠ s.nextId := by
    intro r hm he
    obtain ⟨st, hst, _⟩ := h.matched r hm
    rw [he, hnone] at hst
    cases hst
  have hfresh : Tells T s.nextId { s with nextId := s.nextId + 1 }
      (⟨req, [], 0, [], none, false⟩ : Stream σ) := by
    refine ⟨?_, fun j _ => h.channel_eq j, ?_⟩
    · show s.channel s.nextId = _
      rw [h.channel_eq, hnone, Stream.received]
      dsimp only [Option.elim]
      cases req.tx.hangup with
      | none => rfl
      | some n => exact List.take_nil.symm
    · refine h.slices.trans ⟨?_, ?_⟩
      · rintro ⟨j, st, hst, hbad⟩
        refine Or.inl ⟨j, st, ?_, hst, hbad⟩
        rintro rfl
        rw [hnone] at hst
        cases hst
      · rintro (⟨j, st, _, hst, hbad⟩ | hbad)
        · exact ⟨j, st, hst, hbad⟩
        · cases hbad
  have hadd : ∀ {t : Scheduler μ σ} {st : Stream σ}, Tells T s.nextId t st →
      t.nextId = s.nextId + 1 →
      ((st.ended ≠ none ∧ (t.waiting ++ t.running).Perm (s.waiting ++ s.running)) ∨
        (st.ended = none ∧ ∃ r, r.id = s.nextId ∧ Matches r st ∧
          (t.waiting ++ t.running).Perm (r :: (s.waiting ++ s.running)))) →
      Sim t (Function.update T s.nextId (some st)) := by
    intro t st htells hnext hlists
    refine Sim.update _ htells ?_ h.matched (fun j st' _ => h.live j st') (by omega) ?_ hlists
    · refine List.nodup_cons.mpr ⟨?_, h.ids_nodup⟩
      intro hm
      obtain ⟨r, hm, he⟩ := List.mem_map.mp hm
      exact hold r hm he
    · intro j
      have hpos := h.nextId_pos
      rw [h.submitted j, hnext]
      omega
  unfold Scheduler.enqueue Stream.start
  dsimp only
  split
  · have hcore := send_core { s with nextId := s.nextId + 1 } s.nextId req.tx
      (Stream.event (⟨req, [], 0, [], none, false⟩ : Stream σ) [] Ending.rejected.reason)
    obtain ⟨_, _, _, hw, hrun, hnext, _⟩ := core_eq_iff.mp hcore
    exact hadd ((hfresh.send _).2.congr rfl rfl rfl rfl rfl) hnext
      (Or.inl ⟨nofun, List.Perm.of_eq (congrArg₂ (· ++ ·) hw hrun)⟩)
  · refine hadd (hfresh.congr rfl rfl rfl rfl rfl) rfl (Or.inr ⟨rfl,
      ⟨s.nextId, req, .prefill 0, req.promptTokens, req.promptTokens.length, [], req.params, 0, 0⟩,
      rfl, ⟨rfl, rfl, rfl, rfl⟩, ?_⟩)
    rw [List.append_assoc, List.singleton_append]
    exact List.perm_middle

theorem Sim.admitWaiting (h : Sim s T) : Sim (admitWaiting s) T := by
  refine admitWaiting_rule (P := fun s => Sim s T) ?_ h
  intro s t h ha
  obtain ⟨q, rest, hw, _, _, rfl⟩ := admitOne_some ha
  refine h.perm ?_ rfl rfl rfl
  rw [hw]
  simp only [List.map_append, List.map_cons, List.map_nil, List.cons_append]
  rw [← List.append_assoc]
  exact List.perm_append_singleton _ _

theorem Sim.preempt (h : Sim s T) (id : Nat) : Sim (preempt M s id) T := by
  rcases preempt_cases M s id with ⟨e, _⟩ | ⟨pre, q, post, hr, rfl, e⟩
  · rw [e]
    exact h
  · rw [e]
    refine h.perm ?_ rfl rfl rfl
    exact ((perm_mid s.waiting hr).map outline).symm

theorem Sim.makeRoom (h : Sim s T) : Sim (makeRoom M s) T :=
  makeRoom_rule (P := fun s => Sim s T) (fun _ _ _ _ h => h.perm (List.Perm.refl _) rfl rfl rfl)
    (fun _ id h => h.preempt M id) h

theorem Sim.prefillOneChunk (h : Sim s T) : Sim (prefillOneChunk M sample s)
    ((prefillInputs M sample s).foldl (Streams.feed M.maxSeqLen) T) := by
  have hcalled : ∀ q d, Sim (prefillCalled M s q d) T := fun q d =>
    h.perm (List.Perm.refl _) rfl rfl rfl
  unfold prefillInputs
  rcases prefillOneChunk_cases M sample s with ⟨ht, e⟩ | ⟨pre, q, post, d, hr, hp, ht, hcases⟩
  · rw [ht, e]
    exact h
  · have hphase : ∀ r : Sequence σ, outline r = outline q →
        Sim { prefillCalled M s q d with running := pre ++ r :: post } T := by
      intro r he
      refine (hcalled q d).perm ?_ rfl rfl rfl
      show ((s.waiting ++ (pre ++ r :: post)).map outline).Perm
        ((s.waiting ++ s.running).map outline)
      rw [hr]
      simp only [List.map_append, List.map_cons, he]
      exact List.Perm.refl _
    rw [ht]
    dsimp only
    rcases hcases with ⟨_, logits, hreply, e⟩ | ⟨_, hreply, e⟩ | ⟨hreply, e⟩
    · rw [hreply, e]
      exact (hphase { q with phase := .decode, sampler := (sample q.sampler logits q.tokens).2 }
        rfl).pushToken M rfl _
    · rw [hreply, e]
      exact hphase _ rfl
    · rw [hreply, e]
      exact (hcalled q d).fail M hr

theorem Sim.decodeBatched (h : Sim s T) :
    Sim (decodeBatched M sample s (decodeBatch 0 s.running))
      (((decodeReplies M s).map fun r => inputFor sample r.1 r.2).reverse.foldl
        (Streams.feed M.maxSeqLen) T) := by
  refine decodeBatched_mid_rule (P := fun done t => Sim t
    ((done.map fun r => inputFor sample r.1 r.2).reverse.foldl (Streams.feed M.maxSeqLen) T))
    sample ?_ ?_ (h.perm (List.Perm.refl _) rfl rfl rfl)
  · intro pre q post s done hr hsim
    rw [List.map_cons, List.reverse_cons, List.foldl_concat]
    exact hsim.fail M hr
  · intro pre q post s done logits hr hsim
    rw [List.map_cons, List.reverse_cons, List.foldl_concat, sampleAt_mid M sample hr]
    generalize hu : ({ s with running := pre ++ { q with
      sampler := (sample q.sampler logits q.tokens).2 } :: post } : Scheduler μ σ) = u
    have hru : u.running = pre ++ { q with
        sampler := (sample q.sampler logits q.tokens).2 } :: post := by rw [← hu]
    have hmoved := hsim.perm (t := u) (by
      rw [← hu, hr]
      simp only [List.map_append, List.map_cons]
      exact List.Perm.refl _) (by rw [← hu]) (by rw [← hu]) (by rw [← hu])
    exact hmoved.pushToken M hru _

theorem decodeReplies_nil (h : decodeBatch 0 s.running = []) : decodeReplies M s = [] := by
  have hlen := decodeBatch_length 0 s.running
  rw [h, List.length_nil, eq_comm, List.length_eq_zero_iff] at hlen
  unfold decodeReplies
  rw [hlen]
  dsimp only
  split
  · rfl
  · rfl

theorem Sim.decodeStep (h : Sim s T) : Sim (decodeStep M sample s)
    ((decodeInputs M sample s).foldl (Streams.feed M.maxSeqLen) T) := by
  have hroom := h.makeRoom M
  have hnil : decodeBatch 0 (Scheduler.makeRoom M s).running = [] →
      decodeInputs M sample s = [] := by
    intro he
    unfold decodeInputs
    rw [decodeReplies_nil M he]
    rfl
  unfold Scheduler.decodeStep
  split
  · next he =>
    have hc := List.isEmpty_iff.mp he
    have hid : Scheduler.makeRoom M s = s := by
      unfold Scheduler.makeRoom
      rw [hc]
      rfl
    have hbatch : decodeBatch 0 s.running = [] := by
      unfold candidates at hc
      apply List.eq_nil_of_length_eq_zero
      rw [decodeBatch_length, List.map_eq_nil_iff.mp hc]
      rfl
    rw [hnil (by rw [hid]; exact hbatch)]
    exact h
  · dsimp only
    split
    · next he =>
      rw [hnil (List.isEmpty_iff.mp he)]
      exact hroom
    · exact hroom.decodeBatched M sample

theorem Sim.step (h : Sim s T) : Sim (step M sample s)
    ((stepInputs M sample s).foldl (Streams.feed M.maxSeqLen) T) := by
  unfold stepInputs
  rw [List.foldl_append]
  exact ((h.admitWaiting).prefillOneChunk M sample).decodeStep M sample

/-! ## Whole runs -/

/-- The request of an `enqueue` call. -/
def Action.request : Action σ → Option (Request σ)
  | .enqueue req => some req
  | .step => none

/-- The requests passed to `enqueue`. The first gets the id `1`. -/
def submitted (acts : List (Action σ)) : List (Request σ) :=
  acts.filterMap Action.request

theorem submitted_enqueue (acts : List (Action σ)) (req : Request σ) :
    submitted (acts ++ [.enqueue req]) = submitted acts ++ [req] := by
  unfold submitted
  rw [List.filterMap_append]
  rfl

theorem submitted_step (acts : List (Action σ)) : submitted (acts ++ [.step]) = submitted acts := by
  unfold submitted
  rw [List.filterMap_append]
  exact List.append_nil _

/-- The streams after one more call on `s`. -/
def Streams.act (s : Scheduler μ σ) (T : Streams σ) : Action σ → Streams σ
  | .enqueue req => Function.update T s.nextId (some (Stream.start M.maxSeqLen req))
  | .step => (stepInputs M sample s).foldl (Streams.feed M.maxSeqLen) T

/-- The streams of all requests after a run. -/
def streams (model : μ) (cfg : SchedulerConfig) (acts : List (Action σ)) : Streams σ :=
  (ghostRun (act M sample) (Streams.act M sample) (Scheduler.new M model cfg) (fun _ => none)
    acts).2

variable (model : μ) (cfg : SchedulerConfig) (acts : List (Action σ))

theorem run_concat (a : Action σ) :
    run M sample model cfg (acts ++ [a]) = act M sample (run M sample model cfg acts) a := by
  unfold run
  rw [List.foldl_concat]

theorem streams_concat (a : Action σ) :
    streams M sample model cfg (acts ++ [a]) =
      Streams.act M sample (run M sample model cfg acts) (streams M sample model cfg acts) a :=
  ghostRun_concat _ _ _ acts a

/-- The scheduler treats the requests of every run as their streams say. -/
theorem run_sim : Sim (run M sample model cfg acts) (streams M sample model cfg acts) := by
  induction acts using List.reverseRecOn with
  | nil =>
    refine ⟨fun _ => rfl, ⟨nofun, ?_⟩, Nat.one_pos, ?_, List.nodup_nil,
      fun q hq => absurd hq List.not_mem_nil, fun id st hst => absurd hst nofun⟩
    · rintro ⟨id, st, hst, _⟩
      cases hst
    · intro id
      refine ⟨fun h => absurd rfl h, ?_⟩
      intro ⟨h1, h2⟩
      exact absurd h2 (Nat.not_lt_of_le h1)
  | append_singleton acts a ih =>
    rw [run_concat, streams_concat]
    cases a with
    | enqueue req => exact ih.enqueue M req
    | step => exact ih.step M sample

/-- What holds of every new stream and is kept by every input holds of all streams of a run. -/
theorem streams_rule {P : Stream σ → Prop} (hstart : ∀ req, P (Stream.start M.maxSeqLen req))
    (hfeed : ∀ st x, P st → P (st.feed M.maxSeqLen x)) :
    ∀ id st, streams M sample model cfg acts id = some st → P st := by
  have hone : ∀ (T : Streams σ) (x : Nat × Input), (∀ id st, T id = some st → P st) →
      ∀ id st, T.feed M.maxSeqLen x id = some st → P st := by
    intro T x hT id st hst
    unfold Streams.feed at hst
    by_cases hid : id = x.1
    · rw [hid, Function.update_self] at hst
      obtain ⟨st₀, hst₀, rfl⟩ := Option.map_eq_some_iff.mp hst
      exact hfeed st₀ x.2 (hT _ _ hst₀)
    · rw [Function.update_of_ne hid] at hst
      exact hT id st hst
  induction acts using List.reverseRecOn with
  | nil =>
    intro id st hst
    cases hst
  | append_singleton acts a ih =>
    rw [streams_concat]
    cases a with
    | enqueue req =>
      intro id st hst
      unfold Streams.act at hst
      dsimp only at hst
      by_cases hid : id = (run M sample model cfg acts).nextId
      · rw [hid, Function.update_self] at hst
        exact Option.some.inj hst ▸ hstart req
      · rw [Function.update_of_ne hid] at hst
        exact ih id st hst
    | step =>
      exact List.foldlRecOn (motive := fun T : Streams σ => ∀ id st, T id = some st → P st) _ _
        ih fun T hT x _ => hone T x hT

/-- The stream of a request is the request with the inputs that reached it. -/
theorem streams_run (id : Nat) (st : Stream σ)
    (hst : streams M sample model cfg acts id = some st) :
    ∃ inputs, st = Stream.run M.maxSeqLen st.req inputs := by
  refine streams_rule M sample model cfg acts
    (P := fun st => ∃ inputs, st = Stream.run M.maxSeqLen st.req inputs) ?_ ?_ id st hst
  · intro req
    refine ⟨[], ?_⟩
    rw [Stream.start_req]
    rfl
  · rintro st x ⟨inputs, h⟩
    refine ⟨inputs ++ [x], ?_⟩
    rw [Stream.feed_req, Stream.run, List.foldl_concat]
    exact congrArg (Stream.feed M.maxSeqLen · x) h

theorem Streams.feed_map_req (T : Streams σ) (maxSeqLen : Nat) (x : Nat × Input) (id : Nat) :
    (T.feed maxSeqLen x id).map Stream.req = (T id).map Stream.req := by
  unfold Streams.feed
  by_cases hid : id = x.1
  · rw [hid, Function.update_self, Option.map_map]
    exact congrArg (fun f => (T x.1).map f) (funext fun st => st.feed_req maxSeqLen x.2)
  · rw [Function.update_of_ne hid]

theorem Sim.nextId_eq (h : Sim s T) {reqs : List (Request σ)}
    (hreqs : ∀ k, (T (k + 1)).map Stream.req = reqs[k]?) : s.nextId = reqs.length + 1 := by
  have hiff : ∀ k, k < reqs.length ↔ k + 1 < s.nextId := by
    intro k
    rw [← Nat.not_le, ← List.getElem?_eq_none_iff, ← hreqs k, Option.map_eq_none_iff]
    exact (h.submitted (k + 1)).trans (and_iff_right (Nat.succ_pos k))
  have h1 := hiff reqs.length
  have h2 := hiff (s.nextId - 1)
  have h3 := h.nextId_pos
  omega

/-- The stream of `k + 1` is that of the request submitted after `k` others. -/
theorem streams_req (k : Nat) :
    (streams M sample model cfg acts (k + 1)).map Stream.req = (submitted acts)[k]? := by
  induction acts using List.reverseRecOn generalizing k with
  | nil => rfl
  | append_singleton acts a ih =>
    rw [streams_concat]
    cases a with
    | enqueue req =>
      have hnext := (run_sim M sample model cfg acts).nextId_eq ih
      unfold Streams.act
      dsimp only
      rw [hnext, submitted_enqueue]
      by_cases hk : k = (submitted acts).length
      · rw [hk, Function.update_self, List.getElem?_append_right (Nat.le_refl _), Nat.sub_self]
        exact congrArg some (Stream.start_req _ req)
      · rw [Function.update_of_ne (by omega), ih]
        rcases Nat.lt_or_gt_of_ne hk with hlt | hgt
        · rw [List.getElem?_append_left hlt]
        · rw [List.getElem?_eq_none hgt.le, List.getElem?_eq_none]
          rw [List.length_append]
          exact hgt
    | step =>
      rw [submitted_step, ← ih]
      exact List.foldlRecOn
        (motive := fun T : Streams σ => (T (k + 1)).map Stream.req = _) _ _ rfl fun T hT x _ =>
          (T.feed_map_req _ x (k + 1)).trans hT

/-- A submitted request has a stream, which its client sees. -/
theorem exists_stream {k : Nat} {req : Request σ} (hreq : (submitted acts)[k]? = some req) :
    ∃ inputs, streams M sample model cfg acts (k + 1) =
        some (Stream.run M.maxSeqLen req inputs) ∧
      (run M sample model cfg acts).channel (k + 1) =
        (Stream.run M.maxSeqLen req inputs).received := by
  rw [← streams_req M sample model cfg acts k] at hreq
  obtain ⟨st, hst, rfl⟩ := Option.map_eq_some_iff.mp hreq
  obtain ⟨inputs, hrun⟩ := streams_run M sample model cfg acts _ st hst
  refine ⟨inputs, hrun ▸ hst, ?_⟩
  rw [← hrun, (run_sim M sample model cfg acts).channel_eq, hst]
  rfl

end Cognitora.Infer.Scheduler
