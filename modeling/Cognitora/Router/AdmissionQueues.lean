/-
  The wait queues of admission (cgn-router `src/admission.rs`).

  `Lined` is what every section under the lock keeps: `turn` lists the tenants with a queue,
  each once, no queue is empty or longer than allowed, an entry is an unsent call of its tenant,
  every open call without a slot has one, and nobody waits while a slot is free. The loop of
  `release` goes through pools that are lined up, so what it does is proved by its three rounds
  (`release_rule`): a closed receiver is skipped, an open one gets the slot, or nobody is left.

  `act_effect` says what a step can do to the queues: nothing, or one call parks, or a slot is
  released (`Released`).
-/
import Cognitora.Lib.Run
import Cognitora.Router.Admission

namespace Cognitora.Router

open Cognitora.Lib

namespace Pool

/-- The senders in a tenant's queue. -/
def queue (p : Pool) (tenant : String) : List Nat :=
  (p.waiting tenant).getD []

/-- Call `i` exists and meets `f`. -/
def has (p : Pool) (i : Nat) (f : AdmitCall → Bool) : Bool :=
  p.calls[i]?.any f

/-- What the fields say of the queues. -/
structure WellFormed (cfg : AdmissionConfig) (p : Pool) : Prop where
  turn_nodup : p.turn.Nodup
  mem_turn : ∀ t, t ∈ p.turn ↔ (p.waiting t).isSome
  nonempty : ∀ t q, p.waiting t = some q → q ≠ []
  full : p.turn ≠ [] → cfg.maxQueue ≤ p.inflight

structure Lined (cfg : AdmissionConfig) (p : Pool) : Prop extends WellFormed cfg p where
  short : ∀ t, (p.queue t).length ≤ cfg.waitQueuePerTenant
  nodup : ∀ t, (p.queue t).Nodup
  entry : ∀ t, ∀ i ∈ p.queue t,
    ∃ c, p.calls[i]? = some c ∧ c.tenant = t ∧ c.sent = false ∧ c.stage ≠ .starting
  queued : ∀ i c, p.calls[i]? = some c → c.receiverOpen = true → c.sent = false →
    i ∈ p.queue c.tenant
  starting_unsent : ∀ (i : Nat) (c : AdmitCall), p.calls[i]? = some c → c.stage = .starting →
    c.sent = false

variable {cfg : AdmissionConfig} {p p' : Pool} {i : Nat} {c : AdmitCall}

theorem Lined.empty : Lined cfg Pool.empty where
  turn_nodup := List.nodup_nil
  mem_turn := fun _ => by simp [Pool.empty]
  nonempty := fun _ _ h => absurd h (by simp [Pool.empty])
  full := fun h => absurd rfl h
  short := fun _ => Nat.zero_le _
  nodup := fun _ => List.nodup_nil
  entry := fun _ _ h => absurd h (by simp [queue, Pool.empty])
  queued := fun _ _ h => absurd h (by simp [Pool.empty])
  starting_unsent := fun _ _ h => absurd h (by simp [Pool.empty])

/-! ## Queues -/

theorem Lined.mem_turn_iff (h : Lined cfg p) (t : String) : t ∈ p.turn ↔ p.queue t ≠ [] := by
  rw [h.mem_turn]
  unfold queue
  cases hw : p.waiting t with
  | none => simp
  | some q => simpa using h.nonempty t q hw

theorem Lined.waiting_eq (h : Lined cfg p) (t : String) :
    p.waiting t = if p.queue t = [] then none else some (p.queue t) := by
  unfold queue
  cases hw : p.waiting t with
  | none => rfl
  | some q => rw [Option.getD_some, if_neg (h.nonempty t q hw)]

/-- The entries of a queue belong to its tenant, so no other queue has them. -/
theorem Lined.tenant_unique (h : Lined cfg p) {t u : String} (ht : i ∈ p.queue t)
    (hu : i ∈ p.queue u) : t = u := by
  obtain ⟨c, hc, rfl, _⟩ := h.entry t i ht
  obtain ⟨d, hd, rfl, _⟩ := h.entry u i hu
  rw [Option.some.inj (hc.symm.trans hd)]

theorem getElem?_set_call {calls : List AdmitCall} (hi : calls[i]? = some c) (d : AdmitCall)
    (j : Nat) : (calls.set i d)[j]? = if i = j then some d else calls[j]? := by
  rw [List.getElem?_set, if_pos (List.getElem?_eq_some_iff.mp hi).1]

/-! ## Taking the first of a queue -/

/-- Tenant `t` is next, and call `i` is the first in its queue. -/
structure Front (p : Pool) (t : String) (rest : List String) (i : Nat) (q : List Nat)
    (c : AdmitCall) : Prop where
  turn_eq : p.turn = t :: rest
  queue_eq : p.queue t = i :: q
  call_eq : p.calls[i]? = some c

/-- The pool after a round of `release` for tenant `t`, whose call `i` becomes `d`. -/
def popped (p : Pool) (t : String) (rest : List String) (i : Nat) (q : List Nat)
    (d : AdmitCall) : Pool :=
  { putBack { p with turn := rest } t q with calls := p.calls.set i d }

theorem popped_self {t : String} {rest : List String} {q : List Nat}
    (hc : p.calls[i]? = some c) :
    p.popped t rest i q c = putBack { p with turn := rest } t q := by
  have hset : p.calls.set i c = p.calls := by
    obtain ⟨hlt, rfl⟩ := List.getElem?_eq_some_iff.mp hc
    exact List.set_getElem_self hlt
  unfold popped
  rw [hset]
  have hcalls := calls_putBack { p with turn := rest } t q
  generalize putBack { p with turn := rest } t q = r at hcalls ⊢
  cases r
  cases hcalls
  rfl

theorem waiting_popped (p : Pool) (t : String) (rest : List String) (i : Nat) (q : List Nat)
    (d : AdmitCall) (u : String) :
    (p.popped t rest i q d).waiting u =
      if u = t then if q.isEmpty then none else some q else p.waiting u := by
  unfold popped putBack
  split <;> exact Function.update_apply ..

theorem queue_popped (p : Pool) (t : String) (rest : List String) (i : Nat) (q : List Nat)
    (d : AdmitCall) (u : String) :
    (p.popped t rest i q d).queue u = if u = t then q else p.queue u := by
  unfold queue
  rw [waiting_popped]
  split
  · cases q <;> rfl
  · rfl

theorem turn_popped (p : Pool) (t : String) (rest : List String) (i : Nat) (q : List Nat)
    (d : AdmitCall) :
    (p.popped t rest i q d).turn = if q.isEmpty then rest else rest ++ [t] := by
  unfold popped putBack
  split <;> rfl

theorem inflight_popped (p : Pool) (t : String) (rest : List String) (i : Nat) (q : List Nat)
    (d : AdmitCall) : (p.popped t rest i q d).inflight = p.inflight := by
  unfold popped putBack
  split <;> rfl

theorem permits_popped (p : Pool) (t : String) (rest : List String) (i : Nat) (q : List Nat)
    (d : AdmitCall) : (p.popped t rest i q d).permits = p.permits := by
  unfold popped putBack
  split <;> rfl

theorem Lined.wellFormed_popped (h : Lined cfg p) {t : String} {rest : List String} {q : List Nat}
    (hf : Front p t rest i q c) (d : AdmitCall) : WellFormed cfg (p.popped t rest i q d) := by
  have hturn := h.turn_nodup
  rw [hf.turn_eq, List.nodup_cons] at hturn
  refine ⟨?turn_nodup, fun u => ?mem_turn, fun u x hx => ?nonempty, fun _ => ?full⟩
  case turn_nodup =>
    rw [turn_popped]
    split
    · exact hturn.2
    · exact List.nodup_append.mpr ⟨hturn.2, List.nodup_singleton t, fun a ha b hb hab =>
        hturn.1 (List.mem_singleton.mp hb ▸ hab ▸ ha)⟩
  case mem_turn =>
    have hu := h.mem_turn u
    rw [hf.turn_eq, List.mem_cons] at hu
    rw [turn_popped, waiting_popped]
    by_cases htu : u = t
    · subst htu
      cases q with
      | nil => simpa using hturn.1
      | cons j q => simp
    · simp only [htu, false_or] at hu
      rw [if_neg htu, ← hu]
      split
      · exact Iff.rfl
      · simp [htu]
  case nonempty =>
    rw [waiting_popped] at hx
    split at hx
    · cases q with
      | nil => cases hx
      | cons j q =>
        cases hx
        exact List.cons_ne_nil _ _
    · exact h.nonempty u x hx
  case full =>
    rw [inflight_popped]
    refine h.full ?_
    rw [hf.turn_eq]
    exact List.cons_ne_nil _ _

/-- An entry that is left is not the call that was popped. -/
theorem Lined.left_of_popped (h : Lined cfg p) {t : String} {rest : List String} {q : List Nat}
    (hf : Front p t rest i q c) {d : AdmitCall} {u : String} {j : Nat}
    (hj : j ∈ (p.popped t rest i q d).queue u) : j ∈ p.queue u ∧ i ≠ j := by
  have hnodup := h.nodup t
  rw [hf.queue_eq, List.nodup_cons] at hnodup
  rw [queue_popped] at hj
  split at hj
  · next hu =>
    rw [hu, hf.queue_eq]
    refine ⟨List.mem_cons_of_mem _ hj, ?_⟩
    rintro rfl
    exact hnodup.1 hj
  · next hu =>
    refine ⟨hj, ?_⟩
    rintro rfl
    exact hu (h.tenant_unique hj (hf.queue_eq ▸ List.mem_cons_self))

/-- A round keeps the pool lined up if its call has no further use for its entry. -/
theorem Lined.popped (h : Lined cfg p) {t : String} {rest : List String} {q : List Nat}
    (hf : Front p t rest i q c) {d : AdmitCall} (hstage : d.stage = c.stage)
    (hdone : d.receiverOpen = true → d.sent = true) :
    Lined cfg (p.popped t rest i q d) := by
  have hnodup := h.nodup t
  have hshort := h.short t
  rw [hf.queue_eq, List.nodup_cons] at hnodup
  rw [hf.queue_eq, List.length_cons] at hshort
  have hget : ∀ j, (p.popped t rest i q d).calls[j]? = if i = j then some d else p.calls[j]? :=
    getElem?_set_call hf.call_eq d
  refine ⟨h.wellFormed_popped hf d, fun u => ?short, fun u => ?nodup, fun u j hj => ?entry,
    fun j e he hopen hsent => ?queued, fun j e he hst => ?starting_unsent⟩
  case short =>
    rw [queue_popped]
    split
    · exact Nat.le_of_succ_le hshort
    · exact h.short u
  case nodup =>
    rw [queue_popped]
    split
    · exact hnodup.2
    · exact h.nodup u
  case entry =>
    obtain ⟨hold, hne⟩ := h.left_of_popped hf hj
    rw [hget, if_neg hne]
    exact h.entry u j hold
  case queued =>
    rw [hget] at he
    split at he
    · cases he
      rw [hdone hopen] at hsent
      cases hsent
    · next hne =>
      have hold := h.queued j e he hopen hsent
      rw [queue_popped]
      split
      · next heq =>
        rw [heq, hf.queue_eq] at hold
        exact (List.mem_cons.mp hold).resolve_left (Ne.symm hne)
      · exact hold
  case starting_unsent =>
    rw [hget] at he
    split at he
    · cases he
      obtain ⟨c', hc', _, _, hne⟩ := h.entry t i (hf.queue_eq ▸ List.mem_cons_self)
      rw [Option.some.inj (hc'.symm.trans hf.call_eq)] at hne
      exact absurd (hstage ▸ hst) hne
    · exact h.starting_unsent j e he hst

/-! ## The loop of `release` -/

/-- A lined-up pool with a tenant in `turn` has a first call. -/
theorem Lined.exists_front (h : Lined cfg p) {t : String} {rest : List String}
    (ht : p.turn = t :: rest) : ∃ i q c, Front p t rest i q c := by
  have hne : p.queue t ≠ [] := (h.mem_turn_iff t).mp (ht ▸ List.mem_cons_self)
  obtain ⟨i, q, hq⟩ := List.exists_cons_of_ne_nil hne
  obtain ⟨c, hc, _⟩ := h.entry t i (hq ▸ List.mem_cons_self)
  exact ⟨i, q, c, ht, hq, hc⟩

theorem releaseLoop_front (h : Lined cfg p) {t : String} {rest : List String} {q : List Nat}
    (hf : Front p t rest i q c) (n : Nat) :
    releaseLoop (n + 1) p =
      if c.receiverOpen then p.popped t rest i q { c with sent := true }
      else releaseLoop n (p.popped t rest i q c) := by
  have hw : p.waiting t = some (i :: q) := by
    rw [h.waiting_eq, hf.queue_eq, if_neg (List.cons_ne_nil _ _)]
  rw [popped_self hf.call_eq, releaseLoop, hf.turn_eq]
  dsimp only
  rw [hw]
  dsimp only [List.tail_cons, List.head?_cons]
  rw [calls_putBack]
  dsimp only
  rw [hf.call_eq]
  rfl

theorem rounds_popped (h : Lined cfg p) {t : String} {rest : List String} {q : List Nat}
    (hf : Front p t rest i q c) : (p.popped t rest i q c).rounds < p.rounds := by
  have hw : p.waiting t = some (i :: q) := by
    rw [h.waiting_eq, hf.queue_eq, if_neg (List.cons_ne_nil _ _)]
  rw [popped_self hf.call_eq]
  exact putBack_rounds p hf.turn_eq hw

/-- What holds of a pool and what `release` makes of it, by the rounds of the loop. -/
theorem release_rule {P : Pool → Pool → Prop}
    (free : ∀ p, Lined cfg p → p.turn = [] → P p { p with inflight := p.inflight - 1 })
    (pass : ∀ p t rest i q c, Lined cfg p → Front p t rest i q c → c.receiverOpen = true →
      P p (p.popped t rest i q { c with sent := true }))
    (skip : ∀ p t rest i q c p', Lined cfg p → Front p t rest i q c → c.receiverOpen = false →
      P (p.popped t rest i q c) p' → P p p')
    (h : Lined cfg p) : P p (release p) := by
  have hloop : ∀ n p, Lined cfg p → p.rounds ≤ n → P p (releaseLoop n p) := by
    intro n
    induction n with
    | zero =>
      intro p h hn
      exact free p h (turn_eq_nil p hn)
    | succ n ih =>
      intro p h hn
      cases ht : p.turn with
      | nil =>
        have hend : releaseLoop (n + 1) p = { p with inflight := p.inflight - 1 } := by
          rw [releaseLoop, ht]
        rw [hend]
        exact free p h ht
      | cons t rest =>
        obtain ⟨i, q, c, hf⟩ := h.exists_front ht
        rw [releaseLoop_front h hf]
        cases hopen : c.receiverOpen with
        | true => exact pass p t rest i q c h hf hopen
        | false =>
          have hlt := rounds_popped h hf
          refine skip p t rest i q c _ h hf hopen (ih _ ?_ (by omega))
          refine h.popped hf rfl fun hc => ?_
          rw [hopen] at hc
          cases hc
  exact hloop _ p h (Nat.le_refl _)

/-- The entry of the waiter that a release serves, in the queue of `u`. -/
def servedOf (served : Option (String × Nat)) (u : String) : List Nat :=
  match served with
  | some (t, i) => if t = u then [i] else []
  | none => []

/-- A release serves the first open call of some queue, or nobody, and removes the entries of
    closed calls in front of what is left of each queue. -/
structure Released (p p' : Pool) (served : Option (String × Nat)) : Prop where
  calls_eq : ∀ j, p'.calls[j]? = (p.calls[j]?).map fun c : AdmitCall =>
    { c with sent := c.sent || served.any fun s : String × Nat => s.2 == j }
  queue_eq : ∀ u, ∃ dead, p.queue u = dead ++ servedOf served u ++ p'.queue u ∧
    ∀ j ∈ dead, p.has j AdmitCall.receiverOpen = false
  served_open : ∀ s, served = some s → p.has s.2 AdmitCall.receiverOpen = true

theorem exists_released (h : Lined cfg p) : ∃ served, Released p (release p) served := by
  refine release_rule (P := fun p p' => ∃ served, Released p p' served) ?_ ?_ ?_ h
  · intro p _ _
    refine ⟨none, ⟨fun j => ?_, fun u => ⟨[], rfl, nofun⟩, nofun⟩⟩
    simp
  · intro p t rest i q c h hf hopen
    refine ⟨some (t, i), ⟨fun j => ?_, fun u => ⟨[], ?_, nofun⟩, ?_⟩⟩
    · show (p.calls.set i { c with sent := true })[j]? = _
      rw [getElem?_set_call hf.call_eq]
      split
      · next hij =>
        subst hij
        rw [hf.call_eq]
        simp
      · next hij =>
        have hother : (i == j) = false := by simpa using hij
        simp [hother]
    · rw [queue_popped, List.nil_append, servedOf]
      by_cases hu : t = u
      · subst hu
        simp [hf.queue_eq]
      · simp [hu, Ne.symm hu]
    · rintro s ⟨⟩
      rw [has, hf.call_eq]
      exact hopen
  · rintro p t rest i q c p' h hf hopen ⟨served, hrel⟩
    have hcalls : (p.popped t rest i q c).calls = p.calls := by
      rw [popped_self hf.call_eq, calls_putBack]
    have hhas : ∀ j f, (p.popped t rest i q c).has j f = p.has j f := by
      intro j f
      unfold has
      rw [hcalls]
    refine ⟨served, ⟨fun j => ?_, fun u => ?_, fun s hs => ?_⟩⟩
    · rw [← hcalls]
      exact hrel.calls_eq j
    · obtain ⟨dead, hdead, hclosed⟩ := hrel.queue_eq u
      rw [queue_popped] at hdead
      simp only [hhas] at hclosed
      split at hdead
      · next hu =>
        refine ⟨i :: dead, ?_, fun j hj => ?_⟩
        · rw [hu, hf.queue_eq, ← hu, hdead]
          rfl
        · rcases List.mem_cons.mp hj with rfl | hj
          · rw [has, hf.call_eq]
            exact hopen
          · exact hclosed j hj
      · exact ⟨dead, hdead, hclosed⟩
    · rw [← hhas]
      exact hrel.served_open s hs

theorem Lined.free (h : Lined cfg p) (ht : p.turn = []) :
    Lined cfg { p with inflight := p.inflight - 1 } :=
  ⟨⟨h.turn_nodup, h.mem_turn, h.nonempty, fun hne => absurd ht hne⟩, h.short, h.nodup, h.entry,
    h.queued, h.starting_unsent⟩

theorem Lined.release (h : Lined cfg p) : Lined cfg (release p) := by
  refine release_rule (P := fun _ p' => Lined cfg p') ?_ ?_ ?_ h
  · intro p h ht
    exact h.free ht
  · intro p t rest i q c h hf hopen
    exact h.popped hf rfl fun _ => rfl
  · intro p t rest i q c p' _ _ _ h
    exact h

/-! ## Every other step -/

/-- The queues stay as they are. A call keeps its tenant, gets no slot and does not reopen its
    receiver. -/
structure Quiet (p p' : Pool) : Prop where
  waiting_eq : p'.waiting = p.waiting
  turn_eq : p'.turn = p.turn
  call : ∀ (j : Nat) (c : AdmitCall), p.calls[j]? = some c → ∃ d, p'.calls[j]? = some d ∧
    d.tenant = c.tenant ∧ (d.sent = true → c.sent = true) ∧
    (d.receiverOpen = true → c.receiverOpen = true ∧ d.sent = c.sent) ∧
    (d.stage = .starting → d = c)
  fresh : ∀ (j : Nat) (d : AdmitCall), p.calls[j]? = none → p'.calls[j]? = some d →
    d.stage = .starting ∧ d.sent = false

theorem Quiet.refl (p : Pool) : Quiet p p :=
  ⟨rfl, rfl, fun _ c hc => ⟨c, hc, rfl, id, fun h => ⟨h, rfl⟩, fun _ => rfl⟩,
    fun _ _ hn hs => absurd (hn.symm.trans hs) (by simp)⟩

/-- Permits and slots are counted elsewhere; a slot counted in addition leaves the pool full. -/
theorem Lined.quiet (h : Lined cfg p) (hq : Quiet p p')
    (hfull : p.turn ≠ [] → p.inflight ≤ p'.inflight) : Lined cfg p' := by
  have hqueue : p'.queue = p.queue := by
    unfold queue
    rw [hq.waiting_eq]
  refine ⟨⟨?_, ?_, ?_, fun hne => ?_⟩, ?_, ?_, fun t j hj => ?_, fun j d hd hopen hsent => ?_,
    fun j d hd hst => ?_⟩
  · rw [hq.turn_eq]
    exact h.turn_nodup
  · rw [hq.turn_eq, hq.waiting_eq]
    exact h.mem_turn
  · rw [hq.waiting_eq]
    exact h.nonempty
  · rw [hq.turn_eq] at hne
    exact Nat.le_trans (h.full hne) (hfull hne)
  · rw [hqueue]
    exact h.short
  · rw [hqueue]
    exact h.nodup
  · rw [hqueue] at hj
    obtain ⟨c, hc, ht, hs, hne⟩ := h.entry t j hj
    obtain ⟨d, hd, htenant, hsent, _, hstart⟩ := hq.call j c hc
    refine ⟨d, hd, htenant.trans ht, ?_, fun hst => ?_⟩
    · by_contra hds
      rw [hsent (by simpa using hds)] at hs
      cases hs
    · obtain rfl := hstart hst
      exact hne hst
  · cases hc : p.calls[j]? with
    | none =>
      rw [AdmitCall.receiverOpen, (hq.fresh j d hc hd).1] at hopen
      cases hopen
    | some c =>
      obtain ⟨e, he, htenant, _, hback, _⟩ := hq.call j c hc
      cases he.symm.trans hd
      obtain ⟨hcopen, hsame⟩ := hback hopen
      rw [hqueue, htenant]
      exact h.queued j c hc hcopen (hsame ▸ hsent)
  · cases hc : p.calls[j]? with
    | none => exact (hq.fresh j d hc hd).2
    | some c =>
      obtain ⟨e, he, _, _, _, hstart⟩ := hq.call j c hc
      cases he.symm.trans hd
      obtain rfl := hstart hst
      exact h.starting_unsent j _ hc hst

/-- One call changes and leaves no trace in the queues. -/
theorem Quiet.set {d : AdmitCall} {n m : Nat} (hi : p.calls[i]? = some c)
    (htenant : d.tenant = c.tenant) (hsent : d.sent = true → c.sent = true)
    (hopen : d.receiverOpen = true → c.receiverOpen = true ∧ d.sent = c.sent)
    (hst : d.stage ≠ .starting) :
    Quiet p { p with inflight := n, permits := m, calls := p.calls.set i d } := by
  refine ⟨rfl, rfl, fun j e he => ?_, fun j e hn he => ?_⟩
  · dsimp only
    rw [getElem?_set_call hi]
    split
    · next hij =>
      subst hij
      cases hi.symm.trans he
      exact ⟨d, rfl, htenant, hsent, hopen, fun hs => absurd hs hst⟩
    · exact ⟨e, he, rfl, id, fun h => ⟨h, rfl⟩, fun _ => rfl⟩
  · dsimp only at he
    rw [getElem?_set_call hi] at he
    split at he
    · next hij =>
      subst hij
      rw [hi] at hn
      cases hn
    · rw [hn] at he
      cases he

theorem Quiet.append (p : Pool) (t : String) :
    Quiet p { p with
      calls := p.calls ++ [{ tenant := t, stage := .starting, sent := false }] } := by
  refine ⟨rfl, rfl, fun j e he => ⟨e, ?_, rfl, id, fun h => ⟨h, rfl⟩, fun _ => rfl⟩,
    fun j e hn he => ?_⟩
  · dsimp only
    rw [List.getElem?_append_left (List.getElem?_eq_some_iff.mp he).1]
    exact he
  · dsimp only at he
    rw [List.getElem?_append_right (List.getElem?_eq_none_iff.mp hn)] at he
    rw [List.mem_singleton.mp (List.mem_of_getElem? he)]
    exact ⟨rfl, rfl⟩

/-- `admit` parks call `i`. -/
def park (p : Pool) (i : Nat) (c : AdmitCall) : Pool :=
  let queue := p.queue c.tenant
  { p with
    waiting := Function.update p.waiting c.tenant (some (queue ++ [i]))
    turn := if queue.isEmpty then p.turn ++ [c.tenant] else p.turn
    calls := p.calls.set i { c with stage := .parked } }

theorem queue_park (p : Pool) (i : Nat) (c : AdmitCall) (u : String) :
    (p.park i c).queue u = if u = c.tenant then p.queue u ++ [i] else p.queue u := by
  unfold park queue
  dsimp only
  rw [Function.update_apply]
  split
  · next hu => rw [hu]; rfl
  · rfl

/-- The second section of `admit`, for a call that finds the pool full. -/
theorem admitEnter_full (h : Lined cfg p) (i : Nat) (c : AdmitCall)
    (hfull : canAdmit cfg p = false) :
    admitEnter cfg p i c =
      if cfg.waitQueuePerTenant ≤ (p.queue c.tenant).length then p.setStage i c .queueFull
      else p.park i c := by
  unfold admitEnter
  rw [hfull]
  dsimp only [Bool.false_eq_true, ↓reduceIte]
  show (if cfg.waitQueuePerTenant ≤ (p.queue c.tenant).length then _ else _) = _
  split
  · -- without entries the tenant has no queue, and removing it changes nothing
    split
    · next he =>
      have hnone : p.waiting c.tenant = none := by
        rw [h.waiting_eq, if_pos]
        exact List.isEmpty_iff.mp he
      rw [← hnone, Function.update_eq_self]
    · rfl
  · unfold park setStage
    dsimp only
    split
    · next he => rw [show p.queue c.tenant = (p.waiting c.tenant).getD [] from rfl, if_pos he]
    · next he => rw [show p.queue c.tenant = (p.waiting c.tenant).getD [] from rfl, if_neg he]

theorem getElem?_park (hi : p.calls[i]? = some c) (j : Nat) :
    (p.park i c).calls[j]? = if i = j then some { c with stage := .parked } else p.calls[j]? :=
  getElem?_set_call hi _ j

/-- A call that is starting is in no queue. -/
theorem Lined.not_mem_queue_of_starting (h : Lined cfg p) (hi : p.calls[i]? = some c)
    (hst : c.stage = .starting) (u : String) : i ∉ p.queue u := by
  intro hm
  obtain ⟨d, hd, _, _, hne⟩ := h.entry u i hm
  cases hi.symm.trans hd
  exact hne hst

theorem Lined.mem_turn_park (h : Lined cfg p) (i : Nat) (c : AdmitCall) (u : String) :
    u ∈ (p.park i c).turn ↔ u ∈ p.turn ∨ u = c.tenant := by
  show u ∈ (if (p.queue c.tenant).isEmpty then p.turn ++ [c.tenant] else p.turn) ↔ _
  split
  · simp
  · next hne =>
    have hin : c.tenant ∈ p.turn := (h.mem_turn_iff _).mpr (by simpa using hne)
    constructor
    · exact Or.inl
    · rintro (hu | rfl)
      · exact hu
      · exact hin

theorem Lined.wellFormed_park (h : Lined cfg p) (i : Nat) (c : AdmitCall)
    (hfull : canAdmit cfg p = false) : WellFormed cfg (p.park i c) := by
  refine ⟨?turn_nodup, fun u => ?mem_turn, fun u x hx => ?nonempty, fun _ => ?full⟩
  case turn_nodup =>
    show (if (p.queue c.tenant).isEmpty then p.turn ++ [c.tenant] else p.turn).Nodup
    split
    · next he =>
      refine List.nodup_append.mpr ⟨h.turn_nodup, List.nodup_singleton _, fun a ha b hb hab => ?_⟩
      rw [List.mem_singleton.mp hb] at hab
      exact (h.mem_turn_iff _).mp (hab ▸ ha) (List.isEmpty_iff.mp he)
    · exact h.turn_nodup
  case mem_turn =>
    rw [h.mem_turn_park, h.mem_turn]
    show _ ↔ (Function.update p.waiting c.tenant _ u).isSome = true
    rw [Function.update_apply]
    split
    · next hu => simp [hu]
    · next hu => simp [hu]
  case nonempty =>
    change Function.update p.waiting c.tenant _ u = some x at hx
    rw [Function.update_apply] at hx
    split at hx
    · cases hx
      simp
    · exact h.nonempty u x hx
  case full =>
    show cfg.maxQueue ≤ p.inflight
    by_cases hne : p.turn = []
    · unfold canAdmit at hfull
      rw [hne] at hfull
      simpa using hfull
    · exact h.full hne

theorem mem_queue_park {u : String} {j : Nat} (hj : j ∈ (p.park i c).queue u) :
    j ∈ p.queue u ∨ u = c.tenant ∧ j = i := by
  rw [queue_park] at hj
  split at hj
  · next hu =>
    rcases List.mem_append.mp hj with hj | hj
    · exact Or.inl hj
    · exact Or.inr ⟨hu, List.mem_singleton.mp hj⟩
  · exact Or.inl hj

theorem Lined.park (h : Lined cfg p) (hi : p.calls[i]? = some c) (hst : c.stage = .starting)
    (hfull : canAdmit cfg p = false)
    (hroom : (p.queue c.tenant).length < cfg.waitQueuePerTenant) : Lined cfg (p.park i c) := by
  have hnot := h.not_mem_queue_of_starting hi hst
  refine ⟨h.wellFormed_park i c hfull, fun u => ?short, fun u => ?nodup, fun u j hj => ?entry,
    fun j e he hopen hsent => ?queued, fun j e he hs => ?starting_unsent⟩
  case short =>
    rw [queue_park]
    split
    · next hu =>
      rw [hu, List.length_append]
      exact hroom
    · exact h.short u
  case nodup =>
    rw [queue_park]
    split
    · refine List.nodup_append.mpr ⟨h.nodup u, List.nodup_singleton _, fun a ha b hb hab => ?_⟩
      rw [List.mem_singleton.mp hb] at hab
      exact hnot u (hab ▸ ha)
    · exact h.nodup u
  case entry =>
    rw [getElem?_park hi]
    rcases mem_queue_park hj with hold | ⟨rfl, rfl⟩
    · rw [if_neg fun hij : i = j => hnot u (hij ▸ hold)]
      exact h.entry u j hold
    · rw [if_pos rfl]
      exact ⟨_, rfl, rfl, h.starting_unsent j c hi hst, by simp⟩
  case queued =>
    rw [getElem?_park hi] at he
    rw [queue_park]
    split at he
    · next hij =>
      cases he
      rw [if_pos rfl, hij]
      exact List.mem_append_right _ List.mem_cons_self
    · have hold := h.queued j e he hopen hsent
      split
      · exact List.mem_append_left _ hold
      · exact hold
  case starting_unsent =>
    rw [getElem?_park hi] at he
    split at he
    · cases he
      cases hs
    · exact h.starting_unsent j e he hs

/-! ## What a step does -/

/-- The step drops a permit. -/
def Releases (p : Pool) : Action → Prop
  | .dropPermit => p.permits ≠ 0
  | _ => False

/-- A step leaves the queues alone, or parks a call, or releases a slot. -/
inductive Effect (cfg : AdmissionConfig) (p : Pool) (a : Action) : Pool → Prop where
  | quiet {p' : Pool} (hq : Quiet p p') (hmore : p.inflight ≤ p'.inflight) : Effect cfg p a p'
  | park {i : Nat} {c : AdmitCall} (hi : p.calls[i]? = some c) (hst : c.stage = .starting)
      (hfull : canAdmit cfg p = false)
      (hroom : (p.queue c.tenant).length < cfg.waitQueuePerTenant) : Effect cfg p a (p.park i c)
  | release (hrel : Releases p a) : Effect cfg p a (release { p with permits := p.permits - 1 })

variable {a : Action}

theorem Effect.refl (p : Pool) : Effect cfg p a p :=
  .quiet (Quiet.refl p) (Nat.le_refl _)

theorem Effect.grant (p : Pool) : Effect cfg p a (Pool.grant p) :=
  .quiet ⟨rfl, rfl, fun j c hc => (Quiet.refl p).call j c hc, (Quiet.refl p).fresh⟩ (Nat.le_succ _)

theorem Effect.set {d : AdmitCall} {n m : Nat} (hi : p.calls[i]? = some c)
    (htenant : d.tenant = c.tenant) (hsent : d.sent = true → c.sent = true)
    (hopen : d.receiverOpen = true → c.receiverOpen = true ∧ d.sent = c.sent)
    (hst : d.stage ≠ .starting) (hn : p.inflight ≤ n) :
    Effect cfg p a { p with inflight := n, permits := m, calls := p.calls.set i d } :=
  .quiet (Quiet.set hi htenant hsent hopen hst) hn

/-- A call moves on to a stage at which its receiver is closed. -/
theorem Effect.setStage (hi : p.calls[i]? = some c) {stage : Stage} (hst : stage ≠ .starting)
    (hclosed : stage ≠ .parked ∧ stage ≠ .expired) : Effect cfg p a (p.setStage i c stage) := by
  refine Effect.set hi rfl id (fun hopen => ?_) hst (Nat.le_refl _)
  simp [AdmitCall.receiverOpen, hclosed] at hopen

theorem Effect.receive (hi : p.calls[i]? = some c) : Effect cfg p a (p.receive i c) := by
  refine Effect.set hi rfl nofun (fun hopen => ?_) (by simp) (Nat.le_refl _)
  simp [AdmitCall.receiverOpen] at hopen

theorem Effect.poll (hi : p.calls[i]? = some c) (hst : c.stage = .parked) (elapsed : Bool) :
    Effect cfg p a (p.poll i c elapsed) := by
  unfold Pool.poll
  split
  · exact Effect.receive hi
  · split
    · exact Effect.setStage hi (by simp) (by simp)
    · split
      · refine Effect.set hi rfl id (fun _ => ?_) (by simp) (Nat.le_refl _)
        simp [AdmitCall.receiverOpen, hst]
      · exact Effect.refl p

theorem Effect.admitEnter (h : Lined cfg p) (hi : p.calls[i]? = some c)
    (hst : c.stage = .starting) : Effect cfg p a (admitEnter cfg p i c) := by
  cases hfull : canAdmit cfg p with
  | true =>
    unfold Pool.admitEnter
    rw [if_pos hfull]
    refine Effect.set hi rfl id (fun hopen => ?_) (by simp) (Nat.le_succ _)
    simp [AdmitCall.receiverOpen] at hopen
  | false =>
    rw [admitEnter_full h i c hfull]
    split
    · exact Effect.setStage hi (by simp) (by simp)
    · next hroom => exact .park hi hst hfull (Nat.lt_of_not_le hroom)

theorem Effect.atStage {stage : Stage} {f : AdmitCall → Pool}
    (hf : ∀ c, p.calls[i]? = some c → c.stage = stage → Effect cfg p a (f c)) :
    Effect cfg p a (p.atStage i stage f) := by
  unfold Pool.atStage
  split
  · exact Effect.refl p
  · next c hc =>
    split
    · next hst => exact hf c hc hst
    · exact Effect.refl p

theorem act_effect (h : Lined cfg p) (a : Action) : Effect cfg p a (act cfg p a) := by
  cases a with
  | tryAdmit =>
    show Effect cfg p _ (if canAdmit cfg p then Pool.grant p else p)
    split
    · exact Effect.grant p
    · exact Effect.refl p
  | startAdmit tenant =>
    show Effect cfg p _ (admitStart cfg p tenant)
    unfold admitStart
    split
    · exact Effect.grant p
    · exact .quiet (Quiet.append p tenant) (Nat.le_refl _)
  | enter i => exact Effect.atStage fun c hi hst => Effect.admitEnter h hi hst
  | poll i elapsed => exact Effect.atStage fun c hi hst => Effect.poll hi hst elapsed
  | close i => exact Effect.atStage fun c hi _ => Effect.setStage hi (by simp) (by simp)
  | tryRecv i =>
    refine Effect.atStage fun c hi _ => ?_
    unfold Pool.tryRecv
    split
    · exact Effect.receive hi
    · exact Effect.setStage hi (by simp) (by simp)
  | cancel i => exact Effect.atStage fun c hi _ => Effect.setStage hi (by simp) (by simp)
  | dropPermit =>
    show Effect cfg p _ (if p.permits = 0 then p else _)
    split
    · exact Effect.refl p
    · next hp => exact .release hp

theorem Lined.setPermits (h : Lined cfg p) (n : Nat) : Lined cfg { p with permits := n } :=
  ⟨⟨h.turn_nodup, h.mem_turn, h.nonempty, h.full⟩, h.short, h.nodup, h.entry, h.queued,
    h.starting_unsent⟩

theorem Lined.effect (h : Lined cfg p) (he : Effect cfg p a p') : Lined cfg p' := by
  cases he with
  | quiet hq hmore => exact h.quiet hq fun _ => hmore
  | park hi hst hfull hroom => exact h.park hi hst hfull hroom
  | release _ => exact (h.setPermits _).release

theorem Lined.act (h : Lined cfg p) (a : Action) : Lined cfg (act cfg p a) :=
  h.effect (act_effect h a)

/-! ## Runs -/

/-- A pool after some steps. -/
def run (cfg : AdmissionConfig) (acts : List Action) : Pool :=
  acts.foldl (act cfg) Pool.empty

theorem lined_run (cfg : AdmissionConfig) (acts : List Action) : Lined cfg (run cfg acts) :=
  List.foldlRecOn acts _ Lined.empty fun _ h a _ => h.act a

theorem run_concat (cfg : AdmissionConfig) (acts : List Action) (a : Action) :
    run cfg (acts ++ [a]) = act cfg (run cfg acts) a := by
  unfold run
  rw [List.foldl_append]
  rfl

/-! ## Slots that are sent -/

/-- The calls that a step sends a slot. -/
def servedBy (p p' : Pool) : List Nat :=
  (List.range p.calls.length).filter fun i =>
    p.has i (fun c => !c.sent) && p'.has i AdmitCall.sent

theorem has_iff {f : AdmitCall → Bool} : p.has i f = true ↔ ∃ c, p.calls[i]? = some c ∧ f c := by
  unfold has
  cases p.calls[i]? with
  | none => simp
  | some c => simp

theorem lt_of_has {f : AdmitCall → Bool} (h : p.has i f = true) : i < p.calls.length := by
  obtain ⟨c, hc, _⟩ := has_iff.mp h
  exact (List.getElem?_eq_some_iff.mp hc).1

theorem mem_servedBy : i ∈ servedBy p p' ↔
    p.has i (fun c => !c.sent) = true ∧ p'.has i AdmitCall.sent = true := by
  unfold servedBy
  rw [List.mem_filter, List.mem_range, Bool.and_eq_true]
  exact ⟨And.right, fun h => ⟨lt_of_has h.1, h⟩⟩

theorem Quiet.servedBy_eq (hq : Quiet p p') : servedBy p p' = [] := by
  refine List.eq_nil_iff_forall_not_mem.mpr fun j hj => ?_
  obtain ⟨hunsent, hsent⟩ := mem_servedBy.mp hj
  obtain ⟨c, hc, hcs⟩ := has_iff.mp hunsent
  obtain ⟨d, hd, hds⟩ := has_iff.mp hsent
  obtain ⟨e, he, _, hkept, _, _⟩ := hq.call j c hc
  cases he.symm.trans hd
  rw [hkept hds] at hcs
  cases hcs

theorem servedBy_park (hi : p.calls[i]? = some c) : servedBy p (p.park i c) = [] := by
  refine List.eq_nil_iff_forall_not_mem.mpr fun j hj => ?_
  obtain ⟨hunsent, hsent⟩ := mem_servedBy.mp hj
  obtain ⟨d, hd, hds⟩ := has_iff.mp hunsent
  obtain ⟨e, he, hes⟩ := has_iff.mp hsent
  rw [getElem?_park hi] at he
  split at he
  · next hij =>
    subst hij
    cases hi.symm.trans hd
    cases he
    rw [show c.sent = true from hes] at hds
    cases hds
  · cases hd.symm.trans he
    rw [hes] at hds
    cases hds

section

variable {served : Option (String × Nat)}

/-- A release changes what was sent and nothing else of a call. -/
theorem Released.has_eq (hr : Released p p' served) {f : AdmitCall → Bool}
    (hf : ∀ c sent, f { c with sent := sent } = f c) (j : Nat) : p'.has j f = p.has j f := by
  unfold has
  rw [hr.calls_eq]
  cases p.calls[j]? with
  | none => rfl
  | some c => exact hf c _

/-- The entry that is served stands in its queue. -/
theorem Released.mem_queue {t : String} (hr : Released p p' (some (t, i))) : i ∈ p.queue t := by
  obtain ⟨dead, hqueue, _⟩ := hr.queue_eq t
  rw [hqueue]
  simp [servedOf]

theorem Released.mem_servedBy_iff (h : Lined cfg p) (hr : Released p p' served) (j : Nat) :
    j ∈ servedBy p p' ↔ ∃ t, served = some (t, j) := by
  rw [mem_servedBy]
  constructor
  · rintro ⟨hunsent, hsent⟩
    obtain ⟨c, hc, hcs⟩ := has_iff.mp hunsent
    obtain ⟨d, hd, hds⟩ := has_iff.mp hsent
    rw [hr.calls_eq, hc] at hd
    cases hd
    have hflag : c.sent = false := by simpa using hcs
    change (c.sent || _) = true at hds
    rw [hflag, Bool.false_or] at hds
    cases served with
    | none => cases hds
    | some s =>
      obtain ⟨t, i⟩ := s
      have hi : i = j := by simpa using hds
      exact ⟨t, by rw [hi]⟩
  · rintro ⟨t, rfl⟩
    obtain ⟨c, hc, _, hs, _⟩ := h.entry t j hr.mem_queue
    refine ⟨has_iff.mpr ⟨c, hc, by simp [hs]⟩, has_iff.mpr ⟨{ c with sent := true }, ?_, rfl⟩⟩
    rw [hr.calls_eq, hc]
    simp

end

/-- A step that sends a call a slot is a release. -/
theorem exists_released_of_servedBy (h : Lined cfg p) {a : Action} {j : Nat}
    (hj : j ∈ servedBy p (act cfg p a)) :
    act cfg p a = release { p with permits := p.permits - 1 } ∧
      ∃ t, Released p (act cfg p a) (some (t, j)) := by
  have he := act_effect h a
  generalize act cfg p a = p' at he hj
  cases he with
  | quiet hq _ =>
    rw [hq.servedBy_eq] at hj
    cases hj
  | park hi _ _ _ =>
    rw [servedBy_park hi] at hj
    cases hj
  | release _ =>
    obtain ⟨served, hr⟩ := exists_released (h.setPermits (p.permits - 1))
    obtain ⟨t, rfl⟩ := (hr.mem_servedBy_iff (h.setPermits (p.permits - 1)) j).mp hj
    exact ⟨rfl, t, hr.calls_eq, hr.queue_eq, hr.served_open⟩

end Pool

end Cognitora.Router
