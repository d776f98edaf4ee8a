/-
  Router-side queue admission (cgn-router `src/admission.rs`).

  One `Pool` per (model, role). Every section under the pool's lock is one step, so the
  steps of a run are the interleavings of any number of callers. An `admit` call is
  followed through its stages: the fast path, the second look under the lock, the parked
  future, the expired timer, `rx.close()`, `rx.try_recv()`. Its only await is the parked
  future, so only there can it be cancelled.

  Channels. A call that parks owns the receiver of a oneshot channel whose sender sits in
  its tenant's queue; `sent` is the value in the channel. `send` succeeds exactly while the
  receiver is neither closed nor dropped. Polling the timeout polls the channel first.

  The gauges that `publish` sets are not modelled.
-/
import Mathlib.Algebra.Order.BigOperators.Group.List
import Mathlib.Algebra.Order.Group.Nat
import Mathlib.Algebra.Ring.Nat
import Mathlib.Data.List.Count
import Mathlib.Data.List.Nodup
import Mathlib.Tactic.Common

namespace Cognitora.Router

/-- `cfg.router.admission`. -/
structure AdmissionConfig where
  maxQueue : Nat
  waitQueuePerTenant : Nat

/-- Where an `admit` call that missed the fast path stands. -/
inductive Stage where
  /-- Before the second look under the lock. -/
  | starting
  /-- Awaiting the channel. -/
  | parked
  /-- The timer fired; the receiver is still open. -/
  | expired
  /-- After `rx.close()`. -/
  | closed
  /-- Returned `Ok(Permit)`. -/
  | admitted
  /-- Returned `Err(Rejected::QueueFull)`. -/
  | queueFull
  /-- Returned `Err(Rejected::WaitTimeout)`. -/
  | waitTimeout
  /-- The future was dropped while parked. -/
  | cancelled
  deriving DecidableEq

/-- An `admit` call. `sent`: its channel holds a slot. -/
structure AdmitCall where
  tenant : String
  stage : Stage
  sent : Bool

/-- The receiver is neither closed nor dropped. -/
def AdmitCall.receiverOpen (c : AdmitCall) : Bool :=
  c.stage == .parked || c.stage == .expired

/-- The call has not returned and was not dropped. -/
def AdmitCall.pending (c : AdmitCall) : Bool :=
  c.stage == .starting || c.stage == .parked || c.stage == .expired || c.stage == .closed

/-- `PoolInner`, with the permits that exist and the `admit` calls made so far. Senders are
    named by the index of their call. -/
structure Pool where
  inflight : Nat
  /-- Parked requests by tenant. Empty queues are removed. -/
  waiting : String → Option (List Nat)
  /-- Tenants with parked requests, next to be served at the front. -/
  turn : List String
  permits : Nat
  calls : List AdmitCall

namespace Pool

def empty : Pool where
  inflight := 0
  waiting := fun _ => none
  turn := []
  permits := 0
  calls := []

/-- Call `i` moves on to `stage`. -/
def setStage (p : Pool) (i : Nat) (c : AdmitCall) (stage : Stage) : Pool :=
  { p with calls := p.calls.set i { c with stage := stage } }

/-! ## Release -/

/-- The queue of `tenant` after `pop_front`, put back if it is not empty. -/
def putBack (p : Pool) (tenant : String) (queue : List Nat) : Pool :=
  if queue.isEmpty then { p with waiting := Function.update p.waiting tenant none }
  else { p with
    waiting := Function.update p.waiting tenant (some queue)
    turn := p.turn ++ [tenant] }

/-- The loop of `Pool::release`. -/
def releaseLoop : Nat → Pool → Pool
  | 0, p => { p with inflight := p.inflight - 1 }
  | n + 1, p =>
    match p.turn with
    | [] => { p with inflight := p.inflight - 1 }
    | tenant :: rest =>
      let p := { p with turn := rest }
      match p.waiting tenant with
      | none => releaseLoop n p
      | some queue =>
        let p := putBack p tenant queue.tail
        match queue.head? with
        | none => releaseLoop n p
        | some i =>
          match p.calls[i]? with
          | none => releaseLoop n p
          | some c =>
            -- a failed send means that waiter timed out or disconnected
            if c.receiverOpen then { p with calls := p.calls.set i { c with sent := true } }
            else releaseLoop n p

def queueLen (p : Pool) (tenant : String) : Nat :=
  ((p.waiting tenant).getD []).length

/-- Every round takes a waiter or a tenant away, so this many are enough. -/
def rounds (p : Pool) : Nat :=
  (p.turn.map fun t => p.queueLen t + 1).sum

/-- Give the slot to the next live waiter, or free it. -/
def release (p : Pool) : Pool :=
  releaseLoop p.rounds p

/-! ## Admission -/

/-- A slot is free and nobody is ahead in line. -/
def canAdmit (cfg : AdmissionConfig) (p : Pool) : Bool :=
  decide (p.inflight < cfg.maxQueue) && p.turn.isEmpty

/-- Count a slot and build its permit. -/
def grant (p : Pool) : Pool :=
  { p with inflight := p.inflight + 1, permits := p.permits + 1 }

def tryAdmit (cfg : AdmissionConfig) (p : Pool) : Pool :=
  if canAdmit cfg p then grant p else p

/-- `admit` up to and including the fast path. -/
def admitStart (cfg : AdmissionConfig) (p : Pool) (tenant : String) : Pool :=
  if canAdmit cfg p then grant p
  else { p with calls := p.calls ++ [{ tenant := tenant, stage := .starting, sent := false }] }

/-- The second section of `admit` under the lock: a slot may have freed since the fast path;
    otherwise park, unless the tenant's queue is full. -/
def admitEnter (cfg : AdmissionConfig) (p : Pool) (i : Nat) (c : AdmitCall) : Pool :=
  if canAdmit cfg p then (grant p).setStage i c .admitted
  else
    let queue := (p.waiting c.tenant).getD []
    if cfg.waitQueuePerTenant ≤ queue.length then
      let p := if queue.isEmpty then { p with waiting := Function.update p.waiting c.tenant none }
        else p
      p.setStage i c .queueFull
    else
      let p := { p with waiting := Function.update p.waiting c.tenant (some (queue ++ [i])) }
      let p := if queue.isEmpty then { p with turn := p.turn ++ [c.tenant] } else p
      p.setStage i c .parked

/-- A slot received becomes a permit. -/
def receive (p : Pool) (i : Nat) (c : AdmitCall) : Pool :=
  { p with permits := p.permits + 1 }.setStage i { c with sent := false } .admitted

/-- The parked future is polled; `elapsed`: its timer has fired by then. A channel without
    a value whose sender is gone ends the call. -/
def poll (p : Pool) (i : Nat) (c : AdmitCall) (elapsed : Bool) : Pool :=
  if c.sent then p.receive i c
  else if i ∉ (p.waiting c.tenant).getD [] then p.setStage i c .queueFull
  else if elapsed then p.setStage i c .expired
  else p

/-- `rx.try_recv()` on the closed receiver. -/
def tryRecv (p : Pool) (i : Nat) (c : AdmitCall) : Pool :=
  if c.sent then p.receive i c else p.setStage i c .waitTimeout

/-- One step of a caller, of the runtime that polls or drops a future, or of the holder of a
    permit. -/
inductive Action where
  | tryAdmit
  | startAdmit (tenant : String)
  | enter (i : Nat)
  | poll (i : Nat) (elapsed : Bool)
  | close (i : Nat)
  | tryRecv (i : Nat)
  | cancel (i : Nat)
  | dropPermit

/-- Apply `f` to call `i` if it is at `stage`. -/
def atStage (p : Pool) (i : Nat) (stage : Stage) (f : AdmitCall → Pool) : Pool :=
  match p.calls[i]? with
  | none => p
  | some c => if c.stage = stage then f c else p

def act (cfg : AdmissionConfig) (p : Pool) : Action → Pool
  | .tryAdmit => tryAdmit cfg p
  | .startAdmit tenant => admitStart cfg p tenant
  | .enter i => p.atStage i .starting (admitEnter cfg p i)
  | .poll i elapsed => p.atStage i .parked (p.poll i · elapsed)
  | .close i => p.atStage i .expired (p.setStage i · .closed)
  | .tryRecv i => p.atStage i .closed (p.tryRecv i)
  | .cancel i => p.atStage i .parked (p.setStage i · .cancelled)
  | .dropPermit => if p.permits = 0 then p else release { p with permits := p.permits - 1 }

theorem calls_putBack (p : Pool) (tenant : String) (queue : List Nat) :
    (p.putBack tenant queue).calls = p.calls := by
  unfold putBack
  split <;> rfl

/-! ## The loop of `release` ends -/

theorem queueLen_update (p : Pool) (tenant : String) (q : Option (List Nat)) (ts : List String)
    (t : String) :
    queueLen { p with waiting := Function.update p.waiting tenant q, turn := ts } t =
      if t = tenant then (q.getD []).length else p.queueLen t := by
  unfold queueLen
  dsimp only
  rw [Function.update_apply]
  split <;> rfl

/-- Shortening a queue does not lengthen the rounds left over a list of tenants. -/
theorem sum_rounds_le (p : Pool) (tenant : String) (q : Option (List Nat))
    (hq : (q.getD []).length ≤ p.queueLen tenant) (ts us : List String) :
    (us.map fun t => queueLen
      { p with waiting := Function.update p.waiting tenant q, turn := ts } t + 1).sum ≤
      (us.map fun t => p.queueLen t + 1).sum := by
  apply List.sum_le_sum
  intro t _
  rw [queueLen_update]
  split
  · next h => rw [h]; omega
  · exact Nat.le_refl _

theorem putBack_rounds (p : Pool) {tenant : String} {rest : List String} {queue : List Nat}
    (hturn : p.turn = tenant :: rest) (hq : p.waiting tenant = some queue) :
    (putBack { p with turn := rest } tenant queue.tail).rounds < p.rounds := by
  have hlen : p.queueLen tenant = queue.length := by
    unfold queueLen
    rw [hq, Option.getD_some]
  have hp : p.rounds = queue.length + 1 + (rest.map fun t => p.queueLen t + 1).sum := by
    unfold rounds
    rw [hturn, List.map_cons, List.sum_cons, hlen]
  have htail : queue.tail.length = queue.length - 1 := List.length_tail
  unfold putBack
  split
  · next he =>
    have hle := sum_rounds_le p tenant none (by simp) rest rest
    unfold rounds at hp ⊢
    dsimp only at hle ⊢
    omega
  · next hne =>
    have hpos : 0 < queue.tail.length := List.length_pos_iff.mpr fun h => hne (by simp [h])
    have hle := sum_rounds_le p tenant (some queue.tail)
      (by rw [hlen, Option.getD_some]; omega) (rest ++ [tenant]) rest
    have hlast := queueLen_update p tenant (some queue.tail) (rest ++ [tenant]) tenant
    rw [if_pos rfl, Option.getD_some] at hlast
    unfold rounds at hp ⊢
    dsimp only at hle hlast ⊢
    rw [List.map_append, List.sum_append, List.map_singleton, List.sum_singleton, hlast]
    omega

theorem turn_eq_nil (p : Pool) (h : p.rounds ≤ 0) : p.turn = [] := by
  cases ht : p.turn with
  | nil => rfl
  | cons t ts =>
    unfold rounds at h
    rw [ht, List.map_cons, List.sum_cons] at h
    omega

/-- With `rounds` rounds the loop ends by itself: more of them change nothing. -/
theorem releaseLoop_of_le (n m : Nat) (p : Pool) (hn : p.rounds ≤ n) (hm : p.rounds ≤ m) :
    releaseLoop n p = releaseLoop m p := by
  induction n generalizing m p with
  | zero =>
    cases m with
    | zero => rfl
    | succ m =>
      unfold releaseLoop
      rw [turn_eq_nil p hn]
  | succ n ih =>
    cases m with
    | zero =>
      unfold releaseLoop
      rw [turn_eq_nil p hm]
    | succ m =>
      unfold releaseLoop
      cases ht : p.turn with
      | nil => rfl
      | cons tenant rest =>
        dsimp only
        cases hq : p.waiting tenant with
        | none =>
          have hlt : rounds { p with turn := rest } < p.rounds := by
            unfold rounds
            rw [ht, List.map_cons, List.sum_cons]
            exact Nat.lt_add_of_pos_left (Nat.succ_pos _)
          exact ih m _ (by omega) (by omega)
        | some queue =>
          have hlt := putBack_rounds p ht hq
          have hrec := ih m (putBack { p with turn := rest } tenant queue.tail)
            (by omega) (by omega)
          dsimp only
          rw [hrec]

end Pool

/-! ## All pools -/

/-- Per-(model, role) slot pools. A pool that was never used is empty. -/
structure Admission where
  pools : String × Int → Pool

namespace Admission

def new : Admission where
  pools := fun _ => Pool.empty

/-- A step in the pool of one (model, role). -/
def act (cfg : AdmissionConfig) (s : Admission) (a : (String × Int) × Pool.Action) : Admission where
  pools := Function.update s.pools a.1 ((s.pools a.1).act cfg a.2)

end Admission

end Cognitora.Router
