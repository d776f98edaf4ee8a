/-
  The order of admissions.

  `enqueue` appends to `waiting`, `admit` takes from its front, and `preempt` puts running
  sequences back to its front. `InOrder`: the sequences in `waiting` that were admitted before
  stand in front of those that were not, and the latter are the end of all accepted requests in
  the order of submission. Only `admit` changes the log, and only `enqueue` the requests; the
  other operations keep `InOrder` because all they do to `waiting` is to put running sequences in
  front (`inOrder_keeps`).

  `run_admissions_in_order`: in every run, the sequences admitted for the first time are the
  beginning of the accepted requests, in order.
-/
import Cognitora.Infer.Refinement

namespace Cognitora.Infer.Scheduler

open Cognitora.Lib

variable {μ Λ σ : Type} {M : BatchModel μ Λ} {s t : Scheduler μ σ} {log ids : List Nat}

/-! ## The log -/

/-- The ids that up to `n` rounds of `admit` take from `waiting`, in order. -/
def admittedIds : Nat → Scheduler μ σ → List Nat
  | 0, _ => []
  | n + 1, s =>
    match admitOne s with
    | none => []
    | some t => (s.waiting.take 1).map Sequence.id ++ admittedIds n t

/-- The admissions of one call on `s`. -/
def admissionsOf (s : Scheduler μ σ) : Action σ → List Nat
  | .enqueue _ => []
  | .step => admittedIds s.waiting.length s

/-- `enqueue` puts the request into `waiting`. -/
def accepts (maxSeqLen : Nat) (req : Request σ) : Bool :=
  !(req.promptTokens.isEmpty || decide (maxSeqLen ≤ req.promptTokens.length))

/-- The ids of the accepted requests, in the order of submission. -/
def acceptedIds (maxSeqLen : Nat) (acts : List (Action σ)) : List Nat :=
  (((submitted acts).zipIdx 1).filter fun p => accepts maxSeqLen p.1).map Prod.snd

theorem acceptedIds_nodup (maxSeqLen : Nat) (acts : List (Action σ)) :
    (acceptedIds maxSeqLen acts).Nodup := by
  have hsub := (List.filter_sublist (l := (submitted acts).zipIdx 1)
    (p := fun p => accepts maxSeqLen p.1)).map Prod.snd
  rw [List.zipIdx_map_snd] at hsub
  exact List.Nodup.sublist hsub List.nodup_range'

theorem eraseDups_concat (log : List Nat) (id : Nat) :
    (log ++ [id]).eraseDups = if id ∈ log then log.eraseDups else log.eraseDups ++ [id] := by
  rw [List.eraseDups_append, List.removeAll]
  split
  · next h => simp [h]
  · next h =>
    rw [List.filter_cons_of_pos (by simpa using h), List.filter_nil, List.eraseDups_cons]
    rfl

/-! ## The queue -/

/-- `log` are the admissions so far, `ids` the accepted requests. -/
structure InOrder (log ids : List Nat) (s : Scheduler μ σ) : Prop where
  waiting : ∃ old new, s.waiting = old ++ new ∧ (∀ q ∈ old, q.id ∈ log) ∧
    log.eraseDups ++ new.map Sequence.id = ids
  running : ∀ q ∈ s.running, q.id ∈ log

theorem InOrder.congr (h : InOrder log ids s) (hw : t.waiting = s.waiting)
    (hr : ∀ q ∈ t.running, q.id ∈ s.running.map Sequence.id) : InOrder log ids t := by
  refine ⟨hw ▸ h.waiting, ?_⟩
  intro q hq
  obtain ⟨r, hr, he⟩ := List.mem_map.mp (hr q hq)
  exact he ▸ h.running r hr

/-- Replacing a running sequence by one with its id brings no new id. -/
theorem mem_ids_of_mid {pre post : List (Sequence σ)} {q x r : Sequence σ}
    (hr : s.running = pre ++ q :: post) (hm : r ∈ pre ++ x :: post) (hid : x.id = q.id) :
    r.id ∈ s.running.map Sequence.id := by
  have hids : s.running.map Sequence.id = (pre ++ x :: post).map Sequence.id := by
    rw [hr]
    simp only [List.map_append, List.map_cons, hid]
  rw [hids]
  exact List.mem_map_of_mem hm

/-- Taking a running sequence out leaves the queue alone. -/
theorem InOrder.removed (h : InOrder log ids s) {pre post : List (Sequence σ)} {q : Sequence σ}
    (hr : s.running = pre ++ q :: post)
    (e : t.core = (removeRunning M s pre.length q).core) : InOrder log ids t := by
  rw [removeRunning_mid M hr] at e
  obtain ⟨_, _, _, hw, hrun, _⟩ := core_eq_iff.mp e
  refine h.congr hw ?_
  rw [hrun]
  intro r hm
  exact mem_ids_of_mid hr (((List.sublist_cons_self q post).append_left pre).subset hm) rfl

theorem inOrder_keeps : Keeps M (InOrder log ids : Scheduler μ σ → Prop) where
  called := fun _ _ h => ⟨h.waiting, h.running⟩
  reserved := fun _ _ h => ⟨h.waiting, h.running⟩
  retuned := fun s pre q post phase sampler hr h =>
    h.congr rfl fun r hm => mem_ids_of_mid hr hm rfl
  pushed := by
    intro s pre q post token hr h
    rcases pushToken_core M hr token with e | ⟨_, _, e⟩
    · exact h.removed hr e
    · obtain ⟨_, _, _, hw, hrun, _⟩ := core_eq_iff.mp e
      refine h.congr hw ?_
      rw [hrun]
      intro r hm
      exact mem_ids_of_mid hr hm rfl
  failed := fun s pre q post hr h => h.removed hr (finish_core M hr .error)
  preempted := by
    intro s id h
    rcases preempt_cases M s id with ⟨e, _⟩ | ⟨pre, q, post, hr, rfl, e⟩
    · rw [e]
      exact h
    · rw [e]
      obtain ⟨old, new, hw, hold, hids⟩ := h.waiting
      refine ⟨⟨{ q with phase := .prefill 0 } :: old, new, ?_, ?_, hids⟩, ?_⟩
      · rw [hw]
        rfl
      · intro r hm
        rcases List.mem_cons.mp hm with rfl | hm
        · exact h.running q (mem_mid hr)
        · exact hold r hm
      · intro r hm
        refine h.running r ?_
        rw [hr]
        exact ((List.sublist_cons_self q post).append_left pre).subset hm

/-- The head of the queue was admitted before, or it is the next of the accepted requests. -/
theorem InOrder.admitOne (h : InOrder log ids s) (hn : ids.Nodup) (ha : admitOne s = some t) :
    InOrder (log ++ (s.waiting.take 1).map Sequence.id) ids t := by
  obtain ⟨q, rest, hw, _, _, rfl⟩ := admitOne_some ha
  obtain ⟨old, new, hsplit, hold, hids⟩ := h.waiting
  rw [hw]
  show InOrder (log ++ [q.id]) ids _
  have hrunning : ∀ r ∈ s.running ++ [{ q with admittedAt := s.tick + 1 }],
      r.id ∈ log ++ [q.id] := by
    intro r hm
    rcases List.mem_append.mp hm with hm | hm
    · exact List.mem_append_left _ (h.running r hm)
    · rw [List.mem_singleton.mp hm]
      exact List.mem_append_right _ (List.mem_singleton_self _)
  rw [hw] at hsplit
  cases old with
  | cons p old =>
    obtain ⟨rfl, rfl⟩ := List.cons.inj hsplit
    have hq := hold q List.mem_cons_self
    refine ⟨⟨old, new, rfl, ?_, ?_⟩, hrunning⟩
    · intro r hm
      exact List.mem_append_left _ (hold r (List.mem_cons_of_mem _ hm))
    · rw [eraseDups_concat, if_pos hq]
      exact hids
  | nil =>
    rw [List.nil_append] at hsplit
    subst hsplit
    have hq : q.id ∉ log := by
      intro hm
      rw [← hids, List.map_cons] at hn
      exact (List.nodup_append.mp hn).2.2 _ (List.mem_eraseDups.mpr hm) _ List.mem_cons_self rfl
    refine ⟨⟨[], rest, rfl, fun _ hm => absurd hm List.not_mem_nil, ?_⟩, hrunning⟩
    rw [eraseDups_concat, if_neg hq, List.append_assoc]
    exact hids

theorem InOrder.admitRounds (h : InOrder log ids s) (hn : ids.Nodup) (n : Nat) :
    InOrder (log ++ admittedIds n s) ids (admitRounds n s) := by
  induction n generalizing log s with
  | zero =>
    rw [admittedIds, List.append_nil]
    exact h
  | succ n ih =>
    unfold admittedIds Scheduler.admitRounds
    cases ha : Scheduler.admitOne s with
    | none =>
      dsimp only
      rw [List.append_nil]
      exact h
    | some t =>
      dsimp only
      rw [← List.append_assoc]
      exact ih (h.admitOne hn ha)

variable (sample : σ → Λ → List Token → Token × σ)

theorem InOrder.step (h : InOrder log ids s) (hn : ids.Nodup) :
    InOrder (log ++ admissionsOf s .step) ids (step M sample s) :=
  inOrder_keeps.decodeStep sample (inOrder_keeps.prefillOneChunk sample (h.admitRounds hn _))

theorem InOrder.enqueue (h : InOrder log ids s) (req : Request σ) :
    InOrder log (if accepts M.maxSeqLen req then ids ++ [s.nextId] else ids)
      (enqueue M s req) := by
  have hcond : (req.promptTokens.isEmpty || decide (M.maxSeqLen ≤ req.promptTokens.length)) =
      !accepts M.maxSeqLen req := (Bool.not_not _).symm
  unfold Scheduler.enqueue
  dsimp only
  rw [hcond]
  cases accepts M.maxSeqLen req with
  | false =>
    obtain ⟨_, _, _, hw, hrun, _⟩ := core_eq_iff.mp
      (send_core { s with nextId := s.nextId + 1 } s.nextId req.tx
        { delta := [], finishReason := some .error,
          promptTokens := req.promptTokens.length, completionTokens := 0 })
    refine h.congr hw ?_
    rw [Bool.not_false, if_pos rfl, hrun]
    exact fun r hm => List.mem_map_of_mem hm
  | true =>
    obtain ⟨old, new, hw, hold, hids⟩ := h.waiting
    refine ⟨⟨old, new ++ [⟨s.nextId, req, .prefill 0, req.promptTokens, req.promptTokens.length, [],
      req.params, 0, 0⟩], ?_, hold, ?_⟩, h.running⟩
    · rw [← List.append_assoc, ← hw]
      rfl
    · rw [List.map_append, ← List.append_assoc, hids]
      rfl

/-! ## Whole runs -/

variable (M) (model : μ) (cfg : SchedulerConfig) (acts : List (Action σ))

/-- All admissions of a run, in order. A preempted sequence is admitted once more. -/
def admissions : List Nat :=
  (ghostRun (act M sample) (fun s log a => log ++ admissionsOf s a) (Scheduler.new M model cfg) []
    acts).2

theorem admissions_concat (a : Action σ) :
    admissions M sample model cfg (acts ++ [a]) =
      admissions M sample model cfg acts ++ admissionsOf (run M sample model cfg acts) a :=
  ghostRun_concat _ _ _ acts a

theorem run_inOrder : InOrder (admissions M sample model cfg acts) (acceptedIds M.maxSeqLen acts)
    (run M sample model cfg acts) := by
  induction acts using List.reverseRecOn with
  | nil => exact ⟨⟨[], [], rfl, fun _ hm => absurd hm List.not_mem_nil, rfl⟩,
      fun _ hm => absurd hm List.not_mem_nil⟩
  | append_singleton acts a ih =>
    rw [run_concat, admissions_concat]
    cases a with
    | enqueue req =>
      have hnext :=
        (run_sim M sample model cfg acts).nextId_eq (streams_req M sample model cfg acts)
      have hids : acceptedIds M.maxSeqLen (acts ++ [.enqueue req]) =
          if accepts M.maxSeqLen req then
            acceptedIds M.maxSeqLen acts ++ [(run M sample model cfg acts).nextId]
          else acceptedIds M.maxSeqLen acts := by
        unfold acceptedIds
        rw [submitted_enqueue, List.zipIdx_append, List.filter_append, List.map_append, hnext,
          Nat.add_comm (submitted acts).length 1]
        rw [List.zipIdx_singleton, List.filter_cons, List.filter_nil]
        split
        · rfl
        · exact List.append_nil _
      rw [hids]
      show InOrder (admissions M sample model cfg acts ++ []) _ _
      rw [List.append_nil]
      exact ih.enqueue req
    | step =>
      have hids : acceptedIds M.maxSeqLen (acts ++ [.step]) = acceptedIds M.maxSeqLen acts := by
        unfold acceptedIds
        rw [submitted_step]
      rw [hids]
      exact ih.step sample (acceptedIds_nodup _ _)

/-- In every reached state, `waiting` holds sequences that were admitted before, then the accepted
    requests that never were, in the order of submission. The sequences admitted so far are,
    in the order of their first admissions, exactly the accepted requests before those. -/
theorem run_admissions_in_order :
    ∃ old new, (run M sample model cfg acts).waiting = old ++ new ∧
      (∀ q ∈ old, q.id ∈ admissions M sample model cfg acts) ∧
      (∀ q ∈ new, q.id ∉ admissions M sample model cfg acts) ∧
      (admissions M sample model cfg acts).eraseDups ++ new.map Sequence.id =
        acceptedIds M.maxSeqLen acts := by
  obtain ⟨old, new, hw, hold, hids⟩ := (run_inOrder M sample model cfg acts).waiting
  refine ⟨old, new, hw, hold, ?_, hids⟩
  intro q hq hm
  have hn := acceptedIds_nodup M.maxSeqLen acts
  rw [← hids] at hn
  exact (List.nodup_append.mp hn).2.2 _ (List.mem_eraseDups.mpr hm) _ (List.mem_map_of_mem hq) rfl

end Cognitora.Infer.Scheduler
