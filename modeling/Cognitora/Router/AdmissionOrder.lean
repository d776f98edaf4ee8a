/-
  Waiters are served in the order in which they parked (cgn-router `src/admission.rs`).

  `History` lists the calls of each tenant in the order in which they parked, and the calls that
  were sent a slot. `InOrder`: who parked for a tenant and is not in its queue any more, is
  through, and stood before those that are. `run_queues_in_order`: in every run the queues are
  well formed, and a waiter gets its slot only when every waiter of its tenant that parked
  before has got one or has closed its receiver.

  `queueFull_means_live_iff`: a closed receiver stays in its queue until a release comes to it,
  and `admit` counts it. Over any run, `QueueFull` is returned for queues full of live waiters
  only, exactly if no call that comes when no slot is free finds its tenant's queue at the cap
  with an entry in it that has timed out or was cancelled.
-/
import Cognitora.Router.AdmissionQueues
import Mathlib.Data.List.Induction

namespace Cognitora.Router

open Cognitora.Lib

namespace Pool

variable {cfg : AdmissionConfig} {p p' : Pool} {i : Nat} {c : AdmitCall}

/-- The calls of `tenant` that a step parks. -/
def parkedBy (p p' : Pool) (tenant : String) : List Nat :=
  (List.range p.calls.length).filter fun i =>
    p.has i (fun c => c.tenant == tenant && c.stage == .starting) &&
      p'.has i fun c => c.stage == .parked

/-- The calls of each tenant in the order in which they parked, and the calls that were sent a
    slot. -/
structure History where
  parked : String → List Nat
  served : List Nat

def note (cfg : AdmissionConfig) (p : Pool) (g : History) (a : Action) : History where
  parked := fun t => g.parked t ++ parkedBy p (act cfg p a) t
  served := g.served ++ servedBy p (act cfg p a)

def history (cfg : AdmissionConfig) (acts : List Action) : History :=
  (ghostRun (act cfg) (note cfg) Pool.empty ⟨fun _ => [], []⟩ acts).2

theorem history_concat (cfg : AdmissionConfig) (acts : List Action) (a : Action) :
    history cfg (acts ++ [a]) = note cfg (run cfg acts) (history cfg acts) a :=
  ghostRun_concat (note cfg) _ _ acts a

theorem mem_parkedBy {t : String} : i ∈ parkedBy p p' t ↔
    p.has i (fun c => c.tenant == t && c.stage == .starting) = true ∧
      p'.has i (fun c => c.stage == .parked) = true := by
  unfold parkedBy
  rw [List.mem_filter, List.mem_range, Bool.and_eq_true]
  exact ⟨And.right, fun h => ⟨lt_of_has h.1, h⟩⟩

/-! ## Waiters are served in the order in which they parked -/

/-- Who parked for a tenant is still in its queue, in order, behind those that are through:
    served, or with a closed receiver. -/
structure InOrder (g : History) (p : Pool) : Prop where
  line : ∀ t, ∃ gone, g.parked t = gone ++ p.queue t ∧
    ∀ j ∈ gone, j ∈ g.served ∨ p.has j AdmitCall.receiverOpen = false
  nodup : ∀ t, (g.parked t).Nodup
  call : ∀ t, ∀ j ∈ g.parked t, p.has j (fun c => c.tenant == t && c.stage != .starting) = true

theorem Quiet.parkedBy_eq (hq : Quiet p p') (t : String) : parkedBy p p' t = [] := by
  refine List.eq_nil_iff_forall_not_mem.mpr fun j hj => ?_
  obtain ⟨hstart, hparked⟩ := mem_parkedBy.mp hj
  obtain ⟨c, hc, hcs⟩ := has_iff.mp hstart
  obtain ⟨d, hd, hds⟩ := has_iff.mp hparked
  obtain ⟨e, he, _, _, hback, _⟩ := hq.call j c hc
  cases he.symm.trans hd
  simp only [Bool.and_eq_true, beq_iff_eq] at hcs hds
  have hopen := (hback (by simp [AdmitCall.receiverOpen, hds])).1
  simp [AdmitCall.receiverOpen, hcs.2] at hopen

theorem InOrder.quiet {g : History} (h : InOrder g p) (hq : Quiet p p') : InOrder g p' := by
  have hqueue : p'.queue = p.queue := by
    unfold queue
    rw [hq.waiting_eq]
  refine ⟨fun t => ?_, h.nodup, fun t j hj => ?_⟩
  · obtain ⟨gone, hline, hthrough⟩ := h.line t
    refine ⟨gone, by rw [hqueue, hline], fun j hj => (hthrough j hj).imp_right fun hclosed => ?_⟩
    obtain ⟨c, hc, _⟩ := has_iff.mp (h.call t j (hline ▸ List.mem_append_left _ hj))
    obtain ⟨d, hd, _, _, hback, _⟩ := hq.call j c hc
    rw [has, hc] at hclosed
    rw [has, hd]
    cases hopen : d.receiverOpen with
    | false => exact hopen
    | true =>
      rw [Option.any_some, (hback hopen).1] at hclosed
      cases hclosed
  · obtain ⟨c, hc, hcs⟩ := has_iff.mp (h.call t j hj)
    obtain ⟨d, hd, htenant, _, _, hstart⟩ := hq.call j c hc
    simp only [Bool.and_eq_true, beq_iff_eq, bne_iff_ne] at hcs
    refine has_iff.mpr ⟨d, hd, ?_⟩
    simp only [Bool.and_eq_true, beq_iff_eq, bne_iff_ne]
    refine ⟨htenant.trans hcs.1, fun hst => ?_⟩
    obtain rfl := hstart hst
    exact hcs.2 hst

theorem filter_range_eq_singleton {n : Nat} {f : Nat → Bool} {i : Nat}
    (h : ∀ j, j < n ∧ f j = true ↔ j = i) : (List.range n).filter f = [i] := by
  refine List.perm_singleton.mp ?_
  refine (List.perm_ext_iff_of_nodup (List.nodup_range.filter f) (List.nodup_singleton i)).mpr ?_
  intro j
  rw [List.mem_filter, List.mem_range, List.mem_singleton]
  exact h j

theorem parkedBy_park (hi : p.calls[i]? = some c) (hst : c.stage = .starting) (t : String) :
    parkedBy p (p.park i c) t = if t = c.tenant then [i] else [] := by
  have hmem : ∀ j, j ∈ parkedBy p (p.park i c) t ↔ j = i ∧ t = c.tenant := by
    intro j
    rw [mem_parkedBy]
    constructor
    · rintro ⟨hstart, hparked⟩
      obtain ⟨d, hd, hds⟩ := has_iff.mp hstart
      obtain ⟨e, he, hes⟩ := has_iff.mp hparked
      simp only [Bool.and_eq_true, beq_iff_eq] at hds hes
      rw [getElem?_park hi] at he
      split at he
      · next hij =>
        subst hij
        cases hi.symm.trans hd
        exact ⟨rfl, hds.1.symm⟩
      · cases hd.symm.trans he
        rw [hds.2] at hes
        cases hes
    · rintro ⟨rfl, rfl⟩
      refine ⟨has_iff.mpr ⟨c, hi, by simp [hst]⟩, has_iff.mpr ⟨{ c with stage := .parked }, ?_, ?_⟩⟩
      · rw [getElem?_park hi, if_pos rfl]
      · rfl
  split
  · next ht =>
    refine filter_range_eq_singleton fun j => ?_
    have hj := hmem j
    unfold parkedBy at hj
    rw [List.mem_filter, List.mem_range] at hj
    rw [hj]
    exact and_iff_left ht
  · next ht =>
    refine List.eq_nil_iff_forall_not_mem.mpr fun j hj => ?_
    exact ht ((hmem j).mp hj).2

/-- A call that was not open before parks at the end of the line. -/
theorem InOrder.park {g : History} (h : InOrder g p) (hi : p.calls[i]? = some c)
    (hst : c.stage = .starting) :
    InOrder ⟨fun t => g.parked t ++ if t = c.tenant then [i] else [], g.served⟩ (p.park i c) := by
  -- every call of the history is past its start, so it is not the one that parks
  have hne : ∀ t, ∀ j ∈ g.parked t, i ≠ j := by
    rintro t j hj rfl
    obtain ⟨d, hd, hds⟩ := has_iff.mp (h.call t i hj)
    cases hi.symm.trans hd
    simp [hst] at hds
  have hhas : ∀ t, ∀ j ∈ g.parked t, ∀ f, (p.park i c).has j f = p.has j f := by
    intro t j hj f
    unfold has
    rw [getElem?_park hi, if_neg (hne t j hj)]
  refine ⟨fun t => ?_, fun t => ?_, fun t j hj => ?_⟩
  · obtain ⟨gone, hline, hthrough⟩ := h.line t
    refine ⟨gone, ?_, fun j hj => ?_⟩
    · dsimp only
      rw [hline, queue_park]
      split
      · rw [List.append_assoc]
      · rw [List.append_nil]
    · rw [hhas t j (hline ▸ List.mem_append_left _ hj)]
      exact hthrough j hj
  · dsimp only
    split
    · refine List.nodup_append.mpr ⟨h.nodup t, List.nodup_singleton i, fun a ha b hb hab => ?_⟩
      rw [List.mem_singleton.mp hb] at hab
      exact hne t a ha hab.symm
    · rw [List.append_nil]
      exact h.nodup t
  · dsimp only at hj
    rcases List.mem_append.mp hj with hj | hj
    · rw [hhas t j hj]
      exact h.call t j hj
    · split at hj
      · next ht =>
        rw [List.mem_singleton.mp hj]
        refine has_iff.mpr ⟨{ c with stage := .parked }, ?_, by simp [ht]⟩
        rw [getElem?_park hi, if_pos rfl]
      · cases hj

section

variable {served : Option (String × Nat)}

theorem Released.parkedBy_eq (hr : Released p p' served) (t : String) : parkedBy p p' t = [] := by
  refine List.eq_nil_iff_forall_not_mem.mpr fun j hj => ?_
  obtain ⟨hstart, hparked⟩ := mem_parkedBy.mp hj
  rw [hr.has_eq fun _ _ => rfl] at hparked
  obtain ⟨c, hc, hcs⟩ := has_iff.mp hstart
  obtain ⟨d, hd, hds⟩ := has_iff.mp hparked
  cases hc.symm.trans hd
  simp only [Bool.and_eq_true, beq_iff_eq] at hcs hds
  rw [hcs.2] at hds
  cases hds

theorem InOrder.released {g : History} (h : InOrder g p) (hl : Lined cfg p)
    (hr : Released p p' served) :
    InOrder ⟨g.parked, g.served ++ servedBy p p'⟩ p' := by
  refine ⟨fun t => ?_, h.nodup, fun t j hj => ?_⟩
  · obtain ⟨gone, hline, hthrough⟩ := h.line t
    obtain ⟨dead, hqueue, hdead⟩ := hr.queue_eq t
    refine ⟨gone ++ dead ++ servedOf served t, ?_, fun j hj => ?_⟩
    · dsimp only
      rw [hline, hqueue, List.append_assoc, List.append_assoc, List.append_assoc]
    · rw [hr.has_eq fun _ _ => rfl]
      rcases List.mem_append.mp hj with hj | hj
      · rcases List.mem_append.mp hj with hj | hj
        · exact (hthrough j hj).imp_left (List.mem_append_left _)
        · exact Or.inr (hdead j hj)
      · refine Or.inl (List.mem_append_right _ ((hr.mem_servedBy_iff hl j).mpr ?_))
        cases served with
        | none => cases hj
        | some s =>
          obtain ⟨u, k⟩ := s
          dsimp only [servedOf] at hj
          split at hj
          · exact ⟨u, by rw [List.mem_singleton.mp hj]⟩
          · cases hj
  · rw [hr.has_eq fun _ _ => rfl]
    exact h.call t j hj

end

theorem InOrder.step {g : History} (h : InOrder g p) (hl : Lined cfg p) (a : Action) :
    InOrder (note cfg p g a) (act cfg p a) := by
  have he := act_effect hl a
  unfold note
  generalize act cfg p a = p' at he
  cases he with
  | quiet hq _ =>
    have hsame : (fun t => g.parked t ++ parkedBy p p' t) = g.parked := by
      funext t
      rw [hq.parkedBy_eq, List.append_nil]
    rw [hq.servedBy_eq, List.append_nil, hsame]
    exact h.quiet hq
  | park hi hst _ _ =>
    rw [servedBy_park hi, List.append_nil]
    simp only [parkedBy_park hi hst]
    exact h.park hi hst
  | release _ =>
    have hl' := hl.setPermits (p.permits - 1)
    obtain ⟨served, hr⟩ := exists_released hl'
    have hsame : (fun t => g.parked t ++ parkedBy p
        (Pool.release { p with permits := p.permits - 1 }) t) = g.parked := by
      funext t
      exact (congrArg _ (hr.parkedBy_eq t)).trans (List.append_nil _)
    rw [hsame]
    exact InOrder.released (p := { p with permits := p.permits - 1 })
      ⟨h.line, h.nodup, h.call⟩ hl' hr

theorem inOrder_run (cfg : AdmissionConfig) (acts : List Action) :
    InOrder (history cfg acts) (run cfg acts) := by
  induction acts using List.reverseRecOn with
  | nil => exact ⟨fun _ => ⟨[], rfl, nofun⟩, fun _ => List.nodup_nil, nofun⟩
  | append_singleton acts a ih =>
    rw [history_concat, run_concat]
    exact ih.step (lined_run cfg acts) a

/-- What stands before an element of a list without repetitions is in front of it. -/
theorem mem_of_pair_sublist {α : Type*} {x y : α} {front back : List α}
    (hnodup : (front ++ y :: back).Nodup) (h : [x, y].Sublist (front ++ y :: back)) :
    x ∈ front := by
  obtain ⟨l, r, hlr, hx, hy⟩ := List.cons_sublist_iff.mp h
  have hyr : y ∈ r := List.singleton_sublist.mp hy
  rw [hlr] at hnodup
  have hyl : y ∉ l := fun hyl => (List.nodup_append.mp hnodup).2.2 y hyl y hyr rfl
  rcases List.append_eq_append_iff.mp hlr with ⟨m, hl, hm⟩ | ⟨m, hf, _⟩
  · cases m with
    | nil =>
      rw [hl, List.append_nil] at hx
      exact hx
    | cons z m =>
      cases hm
      exact absurd (hl ▸ List.mem_append_right _ List.mem_cons_self) hyl
  · rw [hf]
    exact List.mem_append_left _ hx

/-- In every run: the queues are well formed, no request waits while a slot is free, and a call
    that is sent a slot has parked, and whoever parked before it for the same tenant has been
    served or has closed its receiver. -/
theorem run_queues_in_order (cfg : AdmissionConfig) (acts : List Action) :
    WellFormed cfg (run cfg acts) ∧
      (∀ i, (run cfg acts).has i (fun c => c.receiverOpen && !c.sent) = true →
        cfg.maxQueue ≤ (run cfg acts).inflight) ∧
      ∀ a, ∀ j ∈ servedBy (run cfg acts) (act cfg (run cfg acts) a),
        (∃ t, j ∈ (history cfg acts).parked t) ∧
          ∀ t i, [i, j].Sublist ((history cfg acts).parked t) →
            i ∈ (history cfg acts).served ∨
              (run cfg acts).has i AdmitCall.receiverOpen = false := by
  have hl := lined_run cfg acts
  have ho := inOrder_run cfg acts
  refine ⟨hl.toWellFormed, fun i hi => ?_, fun a j hj => ?_⟩
  · obtain ⟨c, hc, hcs⟩ := has_iff.mp hi
    simp only [Bool.and_eq_true, Bool.not_eq_true'] at hcs
    have hmem := hl.queued i c hc hcs.1 hcs.2
    refine hl.full fun hturn => ?_
    have hin := (hl.mem_turn_iff c.tenant).mpr (List.ne_nil_of_mem hmem)
    rw [hturn] at hin
    cases hin
  · obtain ⟨_, u, hr⟩ := exists_released_of_servedBy hl hj
    obtain ⟨dead, hqueue, hdead⟩ := hr.queue_eq u
    obtain ⟨gone, hline, hthrough⟩ := ho.line u
    have hparked : (history cfg acts).parked u = (gone ++ dead) ++ j ::
        (act cfg (run cfg acts) a).queue u := by
      rw [hline, hqueue]
      simp [servedOf]
    have hju : j ∈ (history cfg acts).parked u := by
      rw [hparked]
      exact List.mem_append_right _ List.mem_cons_self
    refine ⟨⟨u, hju⟩, fun t i hsub => ?_⟩
    -- a call has one tenant
    have htu : t = u := by
      obtain ⟨c, hc, hct⟩ := has_iff.mp (ho.call t j (hsub.subset (by simp)))
      obtain ⟨d, hd, hdu⟩ := has_iff.mp (ho.call u j hju)
      cases hc.symm.trans hd
      simp only [Bool.and_eq_true, beq_iff_eq] at hct hdu
      exact hct.1.symm.trans hdu.1
    have hnodup := ho.nodup u
    rw [htu] at hsub
    rw [hparked] at hsub hnodup
    rcases List.mem_append.mp (mem_of_pair_sublist hnodup hsub) with hi | hi
    · exact hthrough i hi
    · exact Or.inr (hdead i hi)

/-! ## Full queues -/

/-- The step makes call `i` return `QueueFull`. -/
def ReturnsQueueFull (p p' : Pool) (i : Nat) : Prop :=
  p.has i (fun c => c.stage != .queueFull) = true ∧ p'.has i (fun c => c.stage == .queueFull) = true

instance (p p' : Pool) (i : Nat) : Decidable (ReturnsQueueFull p p' i) :=
  inferInstanceAs (Decidable (_ ∧ _))

/-- The requests of `tenant` that are parked and alive: neither served, nor timed out, nor
    cancelled. -/
def liveWaiters (p : Pool) (tenant : String) : List Nat :=
  (List.range p.calls.length).filter fun i =>
    p.has i fun c => c.tenant == tenant && c.stage == .parked && !c.sent

/-- A call for which the step returns `QueueFull` has the allowed number of live waiters of its
    tenant before it. -/
def FullOfLive (cfg : AdmissionConfig) (p : Pool) (a : Action) : Prop :=
  ∀ i c, p.calls[i]? = some c → ReturnsQueueFull p (act cfg p a) i →
    cfg.waitQueuePerTenant ≤ (p.liveWaiters c.tenant).length

/-- Call `i` is about to run the second section of `admit` with no free slot and its tenant's
    queue at the cap. -/
def EntersFull (cfg : AdmissionConfig) (p : Pool) (i : Nat) (c : AdmitCall) : Prop :=
  p.calls[i]? = some c ∧ c.stage = .starting ∧ canAdmit cfg p = false ∧
    cfg.waitQueuePerTenant ≤ (p.queue c.tenant).length

/-- A call that finds no free slot and its tenant's queue at the cap finds no entry in that queue
    that has timed out or was cancelled. -/
def NoneDead (cfg : AdmissionConfig) (p : Pool) (a : Action) : Prop :=
  ∀ i c, a = .enter i → EntersFull cfg p i c →
    ∀ j ∈ p.queue c.tenant, p.has j (fun d => d.stage == .parked) = true

theorem not_returnsQueueFull_same (hcalls : p'.calls[i]? = p.calls[i]?) :
    ¬ ReturnsQueueFull p p' i := by
  intro h
  obtain ⟨x, hx, hxs⟩ := has_iff.mp h.1
  obtain ⟨y, hy, hys⟩ := has_iff.mp h.2
  cases hx.symm.trans (hcalls.symm.trans hy)
  simp only [bne_iff_ne, beq_iff_eq] at hxs hys
  exact hxs hys

/-- A call that returns `QueueFull` when another stage is set for one call is that call. -/
theorem returnsQueueFull_set {k : Nat} {d e : AdmitCall} (hk : p.calls[k]? = some e)
    (hcalls : p'.calls = p.calls.set k d) (h : ReturnsQueueFull p p' i) :
    i = k ∧ d.stage = .queueFull := by
  have hget : p'.calls[i]? = if k = i then some d else p.calls[i]? := by
    rw [hcalls, getElem?_set_call hk]
  split at hget
  · next hki =>
    obtain ⟨y, hy, hys⟩ := has_iff.mp h.2
    cases hget.symm.trans hy
    exact ⟨hki.symm, by simpa using hys⟩
  · exact absurd h (not_returnsQueueFull_same hget)

theorem atStage_queueFull {k : Nat} {stage : Stage} {f : AdmitCall → Pool}
    (h : ReturnsQueueFull p (p.atStage k stage f) i) :
    ∃ e, p.calls[k]? = some e ∧ e.stage = stage ∧ ReturnsQueueFull p (f e) i := by
  unfold atStage at h
  split at h
  · exact absurd h (not_returnsQueueFull_same rfl)
  · next e he =>
    split at h
    · next hst => exact ⟨e, he, hst, h⟩
    · exact absurd h (not_returnsQueueFull_same rfl)

theorem admitStart_not_queueFull (tenant : String) :
    ¬ ReturnsQueueFull p (admitStart cfg p tenant) i := by
  intro hret
  obtain ⟨d, hd, _⟩ := has_iff.mp hret.1
  refine not_returnsQueueFull_same ?_ hret
  unfold admitStart
  split
  · rfl
  · exact List.getElem?_append_left (List.getElem?_eq_some_iff.mp hd).1

theorem admitEnter_queueFull (h : Lined cfg p) {k : Nat} {e : AdmitCall}
    (hk : p.calls[k]? = some e) (hst : e.stage = .starting)
    (hret : ReturnsQueueFull p (admitEnter cfg p k e) i) : i = k ∧ EntersFull cfg p k e := by
  cases hfull : canAdmit cfg p with
  | true =>
    unfold admitEnter at hret
    rw [if_pos hfull] at hret
    cases (returnsQueueFull_set hk rfl hret).2
  | false =>
    rw [admitEnter_full h k e hfull] at hret
    split at hret
    · next hlen => exact ⟨(returnsQueueFull_set hk rfl hret).1, hk, hst, hfull, hlen⟩
    · cases (returnsQueueFull_set hk rfl hret).2

/-- A parked call whose sender is gone has a slot in its channel. -/
theorem poll_not_queueFull (h : Lined cfg p) {k : Nat} {e : AdmitCall} {elapsed : Bool}
    (hk : p.calls[k]? = some e) (hst : e.stage = .parked) :
    ¬ ReturnsQueueFull p (p.poll k e elapsed) i := by
  intro hret
  unfold poll at hret
  split at hret
  · cases (returnsQueueFull_set hk rfl hret).2
  · next hs =>
    have hin : k ∈ (p.waiting e.tenant).getD [] :=
      h.queued k e hk (by simp [AdmitCall.receiverOpen, hst]) (by simpa using hs)
    rw [if_neg (not_not.mpr hin)] at hret
    split at hret
    · cases (returnsQueueFull_set hk rfl hret).2
    · exact not_returnsQueueFull_same rfl hret

theorem tryRecv_not_queueFull {k : Nat} {e : AdmitCall} (hk : p.calls[k]? = some e) :
    ¬ ReturnsQueueFull p (p.tryRecv k e) i := by
  intro hret
  unfold Pool.tryRecv at hret
  split at hret
  · cases (returnsQueueFull_set hk rfl hret).2
  · cases (returnsQueueFull_set hk rfl hret).2

theorem dropPermit_not_queueFull (h : Lined cfg p) :
    ¬ ReturnsQueueFull p (act cfg p .dropPermit) i := by
  intro hret
  change ReturnsQueueFull p (if p.permits = 0 then p else _) i at hret
  split at hret
  · exact not_returnsQueueFull_same rfl hret
  · obtain ⟨served, hr⟩ := exists_released (h.setPermits (p.permits - 1))
    obtain ⟨hbefore, hafter⟩ := hret
    rw [hr.has_eq fun _ _ => rfl] at hafter
    exact not_returnsQueueFull_same (p := p) rfl ⟨hbefore, hafter⟩

/-- `QueueFull` is returned by the second section of `admit`, when there is no free slot and the
    queue is at the cap. -/
theorem returnsQueueFull_iff (h : Lined cfg p) {a : Action} (hc : p.calls[i]? = some c) :
    ReturnsQueueFull p (act cfg p a) i ↔ a = .enter i ∧ EntersFull cfg p i c := by
  constructor
  · intro hret
    cases a with
    | tryAdmit =>
      refine absurd hret (not_returnsQueueFull_same ?_)
      show (if canAdmit cfg p then grant p else p).calls[i]? = _
      split <;> rfl
    | startAdmit tenant => exact absurd hret (admitStart_not_queueFull tenant)
    | enter k =>
      obtain ⟨e, he, hst, hret⟩ := atStage_queueFull hret
      obtain ⟨rfl, hfull⟩ := admitEnter_queueFull h he hst hret
      cases hc.symm.trans he
      exact ⟨rfl, hfull⟩
    | poll k elapsed =>
      obtain ⟨e, he, hst, hret⟩ := atStage_queueFull hret
      exact absurd hret (poll_not_queueFull h he hst)
    | close k =>
      obtain ⟨e, he, _, hret⟩ := atStage_queueFull hret
      cases (returnsQueueFull_set he rfl hret).2
    | tryRecv k =>
      obtain ⟨e, he, _, hret⟩ := atStage_queueFull hret
      exact absurd hret (tryRecv_not_queueFull he)
    | cancel k =>
      obtain ⟨e, he, _, hret⟩ := atStage_queueFull hret
      cases (returnsQueueFull_set he rfl hret).2
    | dropPermit => exact absurd hret (dropPermit_not_queueFull h)
  · rintro ⟨rfl, _, hst, hfull, hlen⟩
    refine ⟨has_iff.mpr ⟨c, hc, by simp [hst]⟩, ?_⟩
    show (p.atStage i .starting (admitEnter cfg p i)).has i _ = true
    unfold atStage
    rw [hc]
    dsimp only
    rw [if_pos hst, admitEnter_full h i c hfull, if_pos hlen]
    refine has_iff.mpr ⟨{ c with stage := .queueFull }, ?_, rfl⟩
    exact List.getElem?_set_self (List.getElem?_eq_some_iff.mp hc).1

/-- The live waiters of a tenant are the entries of its queue that are parked. -/
theorem length_liveWaiters (h : Lined cfg p) (t : String) :
    (p.liveWaiters t).length =
      ((p.queue t).filter fun j => p.has j fun d => d.stage == .parked).length := by
  refine List.Perm.length_eq ?_
  refine (List.perm_ext_iff_of_nodup (List.nodup_range.filter _) ((h.nodup t).filter _)).mpr ?_
  intro j
  rw [List.mem_filter, List.mem_filter, List.mem_range]
  constructor
  · rintro ⟨_, hj⟩
    obtain ⟨d, hd, hds⟩ := has_iff.mp hj
    simp only [Bool.and_eq_true, beq_iff_eq, Bool.not_eq_true'] at hds
    obtain ⟨⟨rfl, hst⟩, hs⟩ := hds
    refine ⟨h.queued j d hd ?_ hs, has_iff.mpr ⟨d, hd, by simp [hst]⟩⟩
    simp [AdmitCall.receiverOpen, hst]
  · rintro ⟨hj, hparked⟩
    obtain ⟨d, hd, ht, hs, _⟩ := h.entry t j hj
    obtain ⟨e, he, hst⟩ := has_iff.mp hparked
    cases hd.symm.trans he
    refine ⟨lt_of_has hparked, has_iff.mpr ⟨d, hd, ?_⟩⟩
    simpa [ht, hs] using hst

theorem fullOfLive_iff (h : Lined cfg p) (a : Action) : FullOfLive cfg p a ↔ NoneDead cfg p a := by
  have hone : ∀ i c, EntersFull cfg p i c →
      (cfg.waitQueuePerTenant ≤ (p.liveWaiters c.tenant).length ↔
        ∀ j ∈ p.queue c.tenant, p.has j (fun d => d.stage == .parked) = true) := by
    rintro i c ⟨_, _, _, hle⟩
    -- the queue is exactly full
    have hlen : (p.queue c.tenant).length = cfg.waitQueuePerTenant :=
      Nat.le_antisymm (h.short c.tenant) hle
    rw [length_liveWaiters h, ← hlen, ← List.length_filter_eq_length_iff]
    exact ⟨fun hle => Nat.le_antisymm (List.length_filter_le _ _) hle, fun heq => heq.ge⟩
  constructor
  · intro hf i c ha henters
    exact (hone i c henters).mp
      (hf i c henters.1 ((returnsQueueFull_iff h henters.1).mpr ⟨ha, henters⟩))
  · intro hf i c hc hret
    obtain ⟨ha, henters⟩ := (returnsQueueFull_iff h hc).mp hret
    exact (hone i c henters).mpr (hf i c ha henters)

/-- Along every run: `QueueFull` is returned only to a request whose tenant has the allowed
    number of live waiters, exactly if no call ever comes, with no slot free and its tenant's
    queue at the cap, upon a queue that holds a waiter that has timed out or was cancelled. -/
theorem queueFull_means_live_iff (cfg : AdmissionConfig) (acts : List Action) :
    Along (act cfg) (FullOfLive cfg) Pool.empty acts ↔
      Along (act cfg) (NoneDead cfg) Pool.empty acts :=
  along_iff (I := Lined cfg) (fun _ a h => fullOfLive_iff h a) (fun _ a h _ => h.act a) acts _
    Lined.empty

/-- One slot, in use; one request parks and is cancelled. The next request of the tenant is
    refused though nobody waits. -/
theorem cancelled_waiter_fills_queue :
    ¬ ∀ (cfg : AdmissionConfig) (acts : List Action),
      Along (act cfg) (FullOfLive cfg) Pool.empty acts := by
  intro h
  have hrun := h ⟨1, 1⟩
    ([.tryAdmit, .startAdmit "a", .enter 0, .cancel 0, .startAdmit "a"] ++ [.enter 1])
  have hlast := ((along_append _ _ _).mp hrun).2.1
  exact absurd (hlast 1 ⟨"a", .starting, false⟩ rfl (by decide +kernel))
    (by decide +kernel)

end Pool

end Cognitora.Router
