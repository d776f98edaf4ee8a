/-
  Admission slots are conserved, unless a parked call is dropped with a slot in its channel.

  `release` passes a slot on by sending it to a waiter and keeps it counted. The waiter owns
  it from then on, and every way out of `admit` either builds a permit from it or finds the
  channel empty, with one exception: a future that is dropped after the send and before its
  next poll takes the slot with it. `conserved_iff_noSlotLost`: along a run, over all pools,
  the count is right in every state exactly if no step drops such a future. What the queues
  list is taken from `Lined`.
-/
import Cognitora.Router.AdmissionQueues

namespace Cognitora.Router

open Cognitora.Lib

/-- The call is alive and owns a slot it was sent. -/
def AdmitCall.holdsSlot (c : AdmitCall) : Bool :=
  c.sent && (c.stage == .parked || c.stage == .expired || c.stage == .closed)

namespace Pool

/-- Slots handed to calls that are alive and will build a permit from them. -/
def handed (p : Pool) : Nat :=
  p.calls.countP AdmitCall.holdsSlot

/-- `inflight` is right, within the limit, and `0` once everything is over. -/
structure Conserved (cfg : AdmissionConfig) (p : Pool) : Prop where
  balance : p.inflight = p.permits + p.handed
  bounded : p.inflight ≤ cfg.maxQueue
  drained : p.permits = 0 → (∀ c ∈ p.calls, c.pending = false) → p.inflight = 0

/-- The step drops a parked future whose channel holds a slot. -/
def LosesSlot (p : Pool) : Action → Prop
  | .cancel i => ∃ c, p.calls[i]? = some c ∧ c.stage = .parked ∧ c.sent = true
  | _ => False

/-- `inflight` counts the permits, the slots handed over and `n` more. -/
structure Books (cfg : AdmissionConfig) (n : Nat) (p : Pool) : Prop where
  balance : p.inflight = p.permits + p.handed + n
  bounded : p.inflight ≤ cfg.maxQueue

variable {cfg : AdmissionConfig} {n : Nat} {p : Pool} {i : Nat} {c d : AdmitCall}

theorem Books.empty : Books cfg 0 Pool.empty where
  balance := rfl
  bounded := Nat.zero_le _

theorem Books.conserved (h : Books cfg 0 p) : Conserved cfg p where
  balance := h.balance
  bounded := h.bounded
  drained := by
    intro hp hc
    have hz : p.handed = 0 := by
      refine List.countP_eq_zero.mpr ?_
      intro c hm hs
      have := hc c hm
      unfold AdmitCall.holdsSlot at hs
      unfold AdmitCall.pending at this
      cases hst : c.stage <;> simp_all
    rw [h.balance, hp, hz]

/-! ## Changing one call -/

theorem countP_set_add (f : AdmitCall → Bool) {l : List AdmitCall} (hi : l[i]? = some c)
    (d : AdmitCall) :
    (l.set i d).countP f + (f c).toNat = l.countP f + (f d).toNat := by
  obtain ⟨hlt, hc⟩ := List.getElem?_eq_some_iff.mp hi
  have hpos : f c = true → 0 < l.countP f := by
    intro hf
    exact List.countP_pos_iff.mpr ⟨c, hc ▸ List.getElem_mem hlt, hf⟩
  rw [List.countP_set hlt, hc]
  cases hfc : f c <;> cases hfd : f d <;> simp <;> have := hpos hfc <;> omega

/-- A call changes. The slots it gains or loses are those the count of slots in hand is off
    by. -/
theorem Books.setCall (h : Books cfg n p) (hi : p.calls[i]? = some c) {m k : Nat}
    (hcount : c.holdsSlot.toNat + n = d.holdsSlot.toNat + m + k) :
    Books cfg m { p with permits := p.permits + k, calls := p.calls.set i d } := by
  refine ⟨?_, h.bounded⟩
  have hb := h.balance
  have hc := countP_set_add AdmitCall.holdsSlot hi d
  unfold handed at hb ⊢
  dsimp only
  omega

/-- An unsent call moves on. -/
theorem Books.setStage (h : Books cfg n p) (hi : p.calls[i]? = some c) (hs : c.sent = false)
    {stage : Stage} : Books cfg n (p.setStage i c stage) :=
  h.setCall (k := 0) hi (by simp [AdmitCall.holdsSlot, hs])

/-- A slot in the channel of a live call becomes a permit. -/
theorem Books.receive (h : Books cfg 0 p) (hi : p.calls[i]? = some c) (hc : c.holdsSlot = true) :
    Books cfg 0 (p.receive i c) := by
  refine h.setCall (k := 1) hi ?_
  rw [hc]
  simp [AdmitCall.holdsSlot]

/-! ## Release -/

/-- The slot in hand is freed. -/
theorem Books.free (h : Books cfg 1 p) : Books cfg 0 { p with inflight := p.inflight - 1 } := by
  refine ⟨?_, Nat.le_trans (Nat.sub_le _ _) h.bounded⟩
  have := h.balance
  show p.inflight - 1 = p.permits + p.handed + 0
  omega

/-- A round counts as its call does. -/
theorem Books.popped (h : Books cfg n p) {t : String} {rest : List String} {q : List Nat}
    (hf : Front p t rest i q c) {m : Nat}
    (hcount : c.holdsSlot.toNat + n = d.holdsSlot.toNat + m) :
    Books cfg m (p.popped t rest i q d) := by
  have hset : Books cfg m { p with permits := p.permits + 0, calls := p.calls.set i d } :=
    h.setCall hf.call_eq hcount
  constructor
  · rw [inflight_popped, permits_popped]
    exact hset.balance
  · rw [inflight_popped]
    exact h.bounded

/-- `release` passes on or frees the one slot that is not accounted for. -/
theorem Books.release (h : Books cfg 1 p) (hl : Lined cfg p) : Books cfg 0 (release p) := by
  refine release_rule (P := fun p p' => Books cfg 1 p → Books cfg 0 p') ?_ ?_ ?_ hl h
  · exact fun p _ _ h => h.free
  · intro p t rest i q c hl hf hopen h
    -- the popped call was in the queue, so nothing was sent to it before
    have hsent : c.sent = false := by
      obtain ⟨e, he, _, hs, _⟩ := hl.entry t i (hf.queue_eq ▸ List.mem_cons_self)
      rw [← Option.some.inj (he.symm.trans hf.call_eq)]
      exact hs
    refine h.popped hf ?_
    unfold AdmitCall.receiverOpen at hopen
    unfold AdmitCall.holdsSlot
    rw [hsent]
    simp only [Bool.false_and, Bool.toNat_false, Bool.true_and]
    rw [hopen]
    rfl
  · exact fun p t rest i q c p' _ hf _ ih h => ih (h.popped hf rfl)

/-! ## Every other step -/

theorem Books.grant (h : Books cfg n p) (hc : canAdmit cfg p = true) :
    Books cfg n (Pool.grant p) := by
  have hlt : p.inflight < cfg.maxQueue := by
    unfold canAdmit at hc
    simp only [Bool.and_eq_true, decide_eq_true_eq] at hc
    exact hc.1
  refine ⟨?_, hlt⟩
  have := h.balance
  show p.inflight + 1 = p.permits + 1 + p.handed + n
  omega

theorem Books.append (h : Books cfg n p) (t : String) :
    Books cfg n { p with
      calls := p.calls ++ [{ tenant := t, stage := .starting, sent := false }] } := by
  refine ⟨?_, h.bounded⟩
  have := h.balance
  unfold handed at this ⊢
  dsimp only
  rw [List.countP_append]
  simpa [AdmitCall.holdsSlot] using this

/-- The count does not look at the queues. -/
theorem Books.setQueues (h : Books cfg n p) (w : String → Option (List Nat)) (ts : List String) :
    Books cfg n { p with waiting := w, turn := ts } :=
  ⟨h.balance, h.bounded⟩

theorem Books.admitEnter (h : Books cfg n p) (hi : p.calls[i]? = some c) (hs : c.sent = false) :
    Books cfg n (admitEnter cfg p i c) := by
  have hstage : ∀ stage, Books cfg n (p.setStage i c stage) := fun _ => h.setStage hi hs
  unfold Pool.admitEnter
  split
  · next hc => exact (h.grant hc).setStage hi hs
  · dsimp only
    split
    · split
      · exact (hstage .queueFull).setQueues _ _
      · exact hstage .queueFull
    · split
      · exact (hstage .parked).setQueues _ _
      · exact (hstage .parked).setQueues _ _

theorem Books.poll (h : Books cfg 0 p) (hi : p.calls[i]? = some c) (hst : c.stage = .parked)
    (elapsed : Bool) : Books cfg 0 (p.poll i c elapsed) := by
  unfold Pool.poll
  split
  · next hs => exact h.receive hi (by simp [AdmitCall.holdsSlot, hs, hst])
  · next hs =>
    have hs : c.sent = false := by simpa using hs
    split
    · exact h.setStage hi hs
    · split
      · exact h.setStage hi hs
      · exact h

/-- Closing the receiver keeps what is in the channel. -/
theorem Books.close (h : Books cfg n p) (hi : p.calls[i]? = some c) (hst : c.stage = .expired) :
    Books cfg n (p.setStage i c .closed) :=
  h.setCall (k := 0) hi (by simp [AdmitCall.holdsSlot, hst])

theorem Books.tryRecv (h : Books cfg 0 p) (hi : p.calls[i]? = some c) (hst : c.stage = .closed) :
    Books cfg 0 (p.tryRecv i c) := by
  unfold Pool.tryRecv
  split
  · next hs => exact h.receive hi (by simp [AdmitCall.holdsSlot, hs, hst])
  · next hs => exact h.setStage hi (by simpa using hs)

theorem Books.dropPermit (h : Books cfg 0 p) (hl : Lined cfg p) (hp : p.permits ≠ 0) :
    Books cfg 0 (Pool.release { p with permits := p.permits - 1 }) := by
  have h1 : Books cfg 1 { p with permits := p.permits - 1 } := by
    refine ⟨?_, h.bounded⟩
    have := h.balance
    show p.inflight = p.permits - 1 + p.handed + 1
    omega
  exact h1.release (hl.setPermits _)

theorem Books.atStage (h : Books cfg n p) {stage : Stage} {f : AdmitCall → Pool}
    (hf : ∀ c, p.calls[i]? = some c → c.stage = stage → Books cfg n (f c)) :
    Books cfg n (p.atStage i stage f) := by
  unfold Pool.atStage
  split
  · exact h
  · next c hc =>
    split
    · next hst => exact hf c hc hst
    · exact h

/-- A step that loses no slot keeps the books. -/
theorem Books.act (h : Books cfg 0 p) (hl : Lined cfg p) (a : Action) (ha : ¬ LosesSlot p a) :
    Books cfg 0 (act cfg p a) := by
  cases a with
  | tryAdmit =>
    show Books cfg 0 (if canAdmit cfg p then Pool.grant p else p)
    split
    · next hc => exact h.grant hc
    · exact h
  | startAdmit tenant =>
    show Books cfg 0 (Pool.admitStart cfg p tenant)
    unfold Pool.admitStart
    split
    · next hc => exact h.grant hc
    · exact h.append tenant
  | enter i => exact h.atStage fun c hi hst => h.admitEnter hi (hl.starting_unsent _ c hi hst)
  | poll i elapsed => exact h.atStage fun c hi hst => h.poll hi hst elapsed
  | close i => exact h.atStage fun c hi hst => h.close hi hst
  | tryRecv i => exact h.atStage fun c hi hst => h.tryRecv hi hst
  | cancel i =>
    refine h.atStage fun c hi hst => h.setStage hi ?_
    by_contra hs
    exact ha ⟨c, hi, hst, by simpa using hs⟩
  | dropPermit =>
    show Books cfg 0 (if p.permits = 0 then p else _)
    split
    · exact h
    · next hp => exact h.dropPermit hl hp

/-- A step that loses a slot leaves `inflight` one too high. -/
theorem not_conserved_of_losesSlot (h : Books cfg 0 p) (a : Action) (ha : LosesSlot p a) :
    ¬ Conserved cfg (act cfg p a) := by
  cases a with
  | cancel i =>
    obtain ⟨c, hi, hst, hs⟩ := ha
    have hact : act cfg p (.cancel i) = p.setStage i c .cancelled := by
      show p.atStage i .parked _ = _
      unfold Pool.atStage
      rw [hi]
      exact if_pos hst
    rw [hact]
    intro hc
    have hcount := countP_set_add AdmitCall.holdsSlot hi { c with stage := .cancelled }
    have hold : c.holdsSlot = true := by simp [AdmitCall.holdsSlot, hs, hst]
    have hnew : AdmitCall.holdsSlot { c with stage := .cancelled } = false := by
      simp [AdmitCall.holdsSlot]
    rw [hold, hnew, Bool.toNat_true, Bool.toNat_false] at hcount
    have hb := h.balance
    have hb' : p.inflight = p.permits +
        (p.calls.set i { c with stage := .cancelled }).countP AdmitCall.holdsSlot := hc.balance
    unfold handed at hb
    omega
  | _ => exact absurd ha (by simp [LosesSlot])

theorem conserved_act_iff (h : Books cfg 0 p) (hl : Lined cfg p) (a : Action) :
    Conserved cfg (act cfg p a) ↔ ¬ LosesSlot p a := by
  constructor
  · intro hc ha
    exact not_conserved_of_losesSlot h a ha hc
  · intro ha
    exact (h.act hl a ha).conserved

end Pool

/-! ## All pools -/

namespace Admission

/-- The slots of every pool are conserved after the step. -/
def KeepsSlots (cfg : AdmissionConfig) (s : Admission) (a : (String × Int) × Pool.Action) : Prop :=
  ∀ k, Pool.Conserved cfg ((act cfg s a).pools k)

/-- The step drops no parked future whose channel holds a slot. -/
def NoSlotLost (s : Admission) (a : (String × Int) × Pool.Action) : Prop :=
  ¬ Pool.LosesSlot (s.pools a.1) a.2

/-- A step concerns one pool. -/
theorem forall_pools_act (cfg : AdmissionConfig) {s : Admission} {P : Pool → Prop}
    (h : ∀ k, P (s.pools k)) (a : (String × Int) × Pool.Action) :
    (∀ k, P ((act cfg s a).pools k)) ↔ P ((s.pools a.1).act cfg a.2) := by
  unfold act
  dsimp only
  constructor
  · intro hk
    have := hk a.1
    rwa [Function.update_self] at this
  · intro ha k
    rw [Function.update_apply]
    split
    · exact ha
    · exact h k

/-- In every interleaving of calls, polls, cancellations and drops over all pools: the slots
    of every pool are conserved in every state reached exactly if no step drops a parked
    future whose channel holds a slot. -/
theorem conserved_iff_noSlotLost (cfg : AdmissionConfig)
    (acts : List ((String × Int) × Pool.Action)) :
    Along (act cfg) (KeepsSlots cfg) new acts ↔ Along (act cfg) NoSlotLost new acts := by
  refine along_iff (I := fun s => ∀ k, Pool.Books cfg 0 (s.pools k) ∧ Pool.Lined cfg (s.pools k))
    ?_ ?_ acts new fun _ => ⟨Pool.Books.empty, Pool.Lined.empty⟩
  · intro s a h
    have hall := forall_pools_act cfg (fun k => (h k).1.conserved) a
    exact hall.trans (Pool.conserved_act_iff (h a.1).1 (h a.1).2 a.2)
  · intro s a h ha
    obtain ⟨hbooks, hlined⟩ := h a.1
    have hall := forall_pools_act cfg
      (P := fun p => Pool.Books cfg 0 p ∧ Pool.Lined cfg p) h a
    exact hall.mpr ⟨hbooks.act hlined a.2 ha, hlined.act a.2⟩

/-- One slot, one permit, one parked call. The permit is dropped, so the slot is sent; the
    parked future is dropped before it is polled. `inflight` stays 1 with nobody left. -/
theorem cancelled_slot_leaks :
    ¬ ∀ (cfg : AdmissionConfig) (acts : List ((String × Int) × Pool.Action)),
      Along (act cfg) (KeepsSlots cfg) new acts := by
  intro h
  have hrun := h ⟨1, 4⟩ (([.tryAdmit, .startAdmit "a", .enter 0, .dropPermit].map (("m", 0), ·)) ++
    [(("m", 0), .cancel 0)])
  have hlast := (((along_append _ _ _).mp hrun).2.1 ("m", 0)).balance
  exact absurd hlast (by decide +kernel)

end Admission

end Cognitora.Router
