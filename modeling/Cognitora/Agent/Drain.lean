/-
  Draining an agent (cgn-agent `src/supervisor.rs`, `drain`, `shutdown` and `kill_children`;
  `src/grpc.rs`, `generate` and `drain`; the SIGTERM branch of `src/main.rs`).

  SIGTERM sets `draining`, waits for the generations in flight or the timeout, then kills the
  group. The `Agent.Drain` call only kills. `generate` never looks at `draining`.
  `drain_spares_work`: in every run whose steps are `orderly`, a member is killed by a drain
  only while `draining` is set and either nothing is in flight or the timeout has passed since
  the drain began. A step is orderly if the Drain call comes while the node is draining and
  idle, and a generation starts only while no drain that has stopped waiting still has members
  to kill, or after the timeout of all that do.

  A kill takes the handles first and then kills one member after another; the wait for each is
  time that passes. The check of the SIGTERM drain, its taking the handles and each kill are
  steps of their own, so that generations can start and finish between them. `respawn` is the
  supervise loop storing a new group.
-/
import Cognitora.Lib.Run

namespace Cognitora.Agent

open Cognitora.Lib

/-- A task that took the handles of the group: when its drain began, and the members it has
    not killed yet. -/
structure Killer where
  began : Nat
  members : Nat

/-- Where the SIGTERM branch stands. -/
inductive Term where
  | none
  /-- In the loop of `drain`. -/
  | waiting (began : Nat)
  /-- `drain` has returned. -/
  | returned (began : Nat)
  | shutDown

structure DrainState where
  clock : Nat
  draining : Bool
  inflight : Nat
  /-- Members in `children`. -/
  children : Nat
  killers : List Killer
  term : Term

namespace DrainState

def new (members : Nat) : DrainState where
  clock := 0
  draining := false
  inflight := 0
  children := members
  killers := []
  term := .none

inductive Event where
  /-- `generate` takes its guard. -/
  | start
  /-- The guard of a generation drops. -/
  | finish
  | drainRpc
  | sigterm
  /-- One round of the loop of `drain`. -/
  | check
  | shutdown
  /-- The next kill of killer number `i`. -/
  | kill (i : Nat)
  | respawn (members : Nat)
  | pass (d : Nat)

/-- `kill_children` takes the handles. -/
def takeChildren (s : DrainState) (began : Nat) : DrainState :=
  { s with children := 0, killers := s.killers ++ [⟨began, s.children⟩] }

def step (timeout : Nat) (s : DrainState) : Event → DrainState
  | .start => { s with inflight := s.inflight + 1 }
  | .finish => { s with inflight := s.inflight - 1 }
  | .drainRpc => s.takeChildren s.clock
  | .sigterm =>
    match s.term with
    | .none => { s with draining := true, term := .waiting s.clock }
    | _ => s
  | .check =>
    match s.term with
    | .waiting began =>
      if s.inflight = 0 ∨ began + timeout ≤ s.clock then { s with term := .returned began } else s
    | _ => s
  | .shutdown =>
    match s.term with
    | .returned began => { s.takeChildren began with term := .shutDown }
    | _ => s
  | .kill i =>
    match s.killers[i]? with
    | some ⟨began, members + 1⟩ => { s with killers := s.killers.set i ⟨began, members⟩ }
    | _ => s
  | .respawn members => { s with children := members }
  | .pass d => { s with clock := s.clock + d }

/-- The drain that began then may kill: nothing is in flight, or its timeout has passed. -/
def MayKill (timeout : Nat) (s : DrainState) (began : Nat) : Prop :=
  s.draining = true ∧ (s.inflight = 0 ∨ began + timeout ≤ s.clock)

/-- A kill comes while its drain may kill. -/
def Spares (timeout : Nat) (s : DrainState) : Event → Prop
  | .kill i => ∀ killer, s.killers[i]? = some killer → 0 < killer.members →
    s.MayKill timeout killer.began
  | _ => True

/-- The timeout of every drain that has members left to kill has passed. -/
def allOverdue (timeout : Nat) (s : DrainState) : Bool :=
  (s.killers.all fun k => k.members == 0 || k.began + timeout ≤ s.clock) &&
    match s.term with
    | .returned began => began + timeout ≤ s.clock
    | _ => true

def orderly (timeout : Nat) (s : DrainState) : Event → Bool
  | .start => s.allOverdue timeout
  | .drainRpc => s.draining && s.inflight == 0
  | _ => true

/-! ## Runs -/

/-- What orderly steps keep. -/
structure Sound (timeout : Nat) (s : DrainState) : Prop where
  killers : ∀ k ∈ s.killers, 0 < k.members → s.MayKill timeout k.began
  waiting : ∀ began, s.term = .waiting began → s.draining = true
  returned : ∀ began, s.term = .returned began → s.MayKill timeout began

variable {timeout : Nat} {s : DrainState}

theorem mayKill_pass {began : Nat} (h : s.MayKill timeout began) (d : Nat) :
    { s with clock := s.clock + d }.MayKill timeout began :=
  ⟨h.1, h.2.imp_right fun hlate => Nat.le_add_right_of_le hlate⟩

theorem mayKill_finish {began : Nat} (h : s.MayKill timeout began) :
    { s with inflight := s.inflight - 1 }.MayKill timeout began := by
  refine ⟨h.1, h.2.imp_left fun hidle => ?_⟩
  show s.inflight - 1 = 0
  rw [hidle]

theorem sound_start (h : s.Sound timeout) (ho : s.allOverdue timeout = true) :
    (s.step timeout .start).Sound timeout := by
  obtain ⟨hkillers, hterm⟩ := Bool.and_eq_true_iff.mp ho
  refine ⟨fun k hk hpos => ?_, h.waiting, fun began hbegan => ?_⟩
  · have hlate := List.all_eq_true.mp hkillers k hk
    simp only [Bool.or_eq_true, beq_iff_eq, decide_eq_true_eq] at hlate
    exact ⟨(h.killers k hk hpos).1, .inr (hlate.resolve_left (Nat.ne_of_gt hpos))⟩
  · have hbegan : s.term = .returned began := hbegan
    rw [hbegan] at hterm
    have hlate : began + timeout ≤ s.clock := by simpa using hterm
    exact ⟨(h.returned began hbegan).1, .inr hlate⟩

/-- A drain that may kill takes the handles. -/
theorem killers_takeChildren (h : s.Sound timeout) {began : Nat} (hmay : s.MayKill timeout began) :
    ∀ k ∈ (s.takeChildren began).killers, 0 < k.members →
      (s.takeChildren began).MayKill timeout k.began := by
  intro k hk hpos
  rcases List.mem_append.mp hk with hk | hk
  · exact h.killers k hk hpos
  · rw [List.mem_singleton.mp hk]
    exact hmay

theorem sound_kill (h : s.Sound timeout) (i : Nat) : (s.step timeout (.kill i)).Sound timeout := by
  unfold step
  dsimp only
  split
  · next began members hkiller =>
    refine ⟨fun k hk hpos => ?_, h.waiting, h.returned⟩
    rcases List.mem_or_eq_of_mem_set hk with hold | rfl
    · exact h.killers k hold hpos
    · exact h.killers ⟨began, members + 1⟩ (List.mem_of_getElem? hkiller) (Nat.succ_pos members)
  · exact h

theorem sound_step (h : s.Sound timeout) (e : Event) (ho : s.orderly timeout e = true) :
    (s.step timeout e).Sound timeout := by
  cases e with
  | start => exact sound_start h ho
  | finish =>
    exact ⟨fun k hk hpos => mayKill_finish (h.killers k hk hpos), h.waiting,
      fun began hbegan => mayKill_finish (h.returned began hbegan)⟩
  | drainRpc =>
    obtain ⟨hdraining, hidle⟩ : s.draining = true ∧ s.inflight = 0 := by
      simpa [orderly] using ho
    exact ⟨killers_takeChildren h ⟨hdraining, .inl hidle⟩, h.waiting, h.returned⟩
  | sigterm =>
    unfold step
    dsimp only
    split
    · refine ⟨fun k hk hpos => ⟨rfl, (h.killers k hk hpos).2⟩, fun _ _ => rfl, fun _ hbegan => ?_⟩
      exact absurd hbegan (by simp)
    · exact h
  | check =>
    unfold step
    dsimp only
    split
    · next began hwaiting =>
      split
      · next hdone =>
        refine ⟨h.killers, fun _ hbegan => absurd hbegan (by simp), fun _ hbegan => ?_⟩
        rw [← Term.returned.inj hbegan]
        exact ⟨h.waiting began hwaiting, hdone⟩
      · exact h
    · exact h
  | shutdown =>
    unfold step
    dsimp only
    split
    · next began hreturned =>
      exact ⟨killers_takeChildren h (h.returned began hreturned),
        fun _ hbegan => absurd hbegan (by simp), fun _ hbegan => absurd hbegan (by simp)⟩
    · exact h
  | kill i => exact sound_kill h i
  | respawn members => exact ⟨h.killers, h.waiting, h.returned⟩
  | pass d =>
    exact ⟨fun k hk hpos => mayKill_pass (h.killers k hk hpos) d, h.waiting,
      fun began hbegan => mayKill_pass (h.returned began hbegan) d⟩

theorem sound_new (timeout members : Nat) : (new members).Sound timeout :=
  ⟨fun _ hk => absurd hk List.not_mem_nil, fun _ hbegan => absurd hbegan (by simp [new]),
    fun _ hbegan => absurd hbegan (by simp [new])⟩

theorem spares_of_sound (h : s.Sound timeout) (e : Event) : s.Spares timeout e := by
  cases e with
  | kill i => exact fun killer hkiller => h.killers killer (List.mem_of_getElem? hkiller)
  | _ => trivial

/-- In every run of orderly steps a drain kills only while the node is draining, and either
    nothing is in flight or the drain's timeout has passed. -/
theorem drain_spares_work (timeout members : Nat) (events : List Event)
    (h : Along (step timeout) (fun s e => s.orderly timeout e = true) (new members) events) :
    Along (step timeout) (Spares timeout) (new members) events :=
  h.of_invariant (fun _ e hs => spares_of_sound hs e) (fun _ e hs ho => sound_step hs e ho)
    (sound_new timeout members)

/-- A generation finishes while the drain waits; then the group goes. -/
theorem drain_spares_generation :
    Along (step 30) (fun s e => s.orderly 30 e = true) (new 1)
        [.start, .sigterm, .check, .pass 5, .finish, .check, .shutdown, .kill 0] ∧
      Along (step 30) (Spares 30) (new 1)
        [.start, .sigterm, .check, .pass 5, .finish, .check, .shutdown, .kill 0] :=
  ⟨by decide, drain_spares_work 30 1 _ (by decide)⟩

/-- The Drain call kills the engine under a running generation. -/
theorem drainRpc_kills_generation :
    ¬ Along (step 30) (Spares 30) (new 1) [.start, .drainRpc, .kill 0] := by
  rintro ⟨_, _, hkill, _⟩
  exact absurd (hkill ⟨0, 1⟩ rfl (by decide)).1 (by decide)

end DrainState

end Cognitora.Agent
