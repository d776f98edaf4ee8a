/-
  The energy-aware autoscaler of the router (cgn-router `src/autoscaler.rs`).

  A tick averages the load of every registered node and writes one hint a node: drain it if
  the cluster is idle and the node draws more than the threshold. The pools of the admission
  controller are part of the state here because the module's own rules name them; the tick
  does not read them. `burst_stops_draining_iff` says when a burst leaves every node in
  service all the same.

  The arithmetic of loads and watts is a type `K` with the operations the tick uses and no
  laws, so `f32` is one; ℚ is the exact one. `fmt` prints a number with some decimals. Of an
  entry the tick reads the id and what `loads` has for it, so a snapshot is a list of ids, in
  the order in which the map lists them this time. Hints are named by their node, without the
  key's prefix.
-/
import Cognitora.Core.Error
import Cognitora.Router.Admission
import Cognitora.Router.Registry
import Mathlib.Algebra.Order.Field.Rat

namespace Cognitora.Router

open Cognitora.Core

/-- `cfg.router.autoscaler`. -/
structure AutoscalerConfig (K : Type*) where
  enabled : Bool
  idleUtilPct : K
  highWattThreshold : K

/-- The fields of a `NodeEntry` that the tick reads. -/
structure NodeLoad (K : Type*) where
  queueDepth : UInt32
  /-- 0 when the engine reports none. -/
  totalBlocks : UInt32
  powerWatts : K

/-- The router's state, as far as the autoscaler's rules speak of it. -/
structure TickState (K : Type*) where
  autoscaler : AutoscalerConfig K
  etcdEndpoints : List String
  nodes : NodeRegistry
  loads : String → NodeLoad K
  admission : AdmissionConfig
  /-- The admission pools by model and role. -/
  pools : String → Int → Option Pool

/-- A hint as it is written to etcd. -/
structure HintBody (K : Type*) where
  drain : Bool
  reason : String
  watts : K
  stamp : String

/-- What etcd and the clock answer during a tick. -/
structure TickEnv where
  /-- The error of `Client::connect`, if it fails. -/
  connectError : Option String
  /-- The put of this node's hint succeeds. -/
  stored : String → Bool
  stamp : String → String

section

variable {K : Type*} [Add K] [Mul K] [Div K] [Min K] [NatCast K] [LT K] [DecidableLT K]

/-- Queue depth over capacity, at most 1. -/
def NodeLoad.load (l : NodeLoad K) : K :=
  min (((l.queueDepth.toNat : Nat) : K) / (((max l.totalBlocks.toNat 1 : Nat) : Nat) : K))
    ((1 : Nat) : K)

namespace TickState

variable (σ : TickState K)

/-- The average load of the nodes of a snapshot. -/
def avgLoad (nodes : List String) : K :=
  ((nodes.map fun id => (σ.loads id).load).foldl (· + ·) ((0 : Nat) : K)) /
    ((nodes.length : Nat) : K)

def clusterIdle (nodes : List String) : Bool :=
  decide (σ.avgLoad nodes * ((100 : Nat) : K) < σ.autoscaler.idleUtilPct)

/-- The node draws more than the threshold. -/
def hot (id : String) : Bool :=
  decide (σ.autoscaler.highWattThreshold < (σ.loads id).powerWatts)

variable (fmt : Nat → K → String)

def hint (nodes : List String) (stamp id : String) : HintBody K :=
  let drain := σ.clusterIdle nodes && σ.hot id
  { drain := drain
    reason :=
      if drain then
        "idle (avg " ++ fmt 1 (σ.avgLoad nodes * ((100 : Nat) : K)) ++ "%); watts " ++
          fmt 0 (σ.loads id).powerWatts ++ " > threshold " ++
          fmt 0 σ.autoscaler.highWattThreshold
      else "active"
    watts := (σ.loads id).powerWatts
    stamp := stamp }

/-- The hints one tick writes, by node. A failed put is logged and skipped. -/
def tick (nodes : List String) (env : TickEnv) : Except Error (List (String × HintBody K)) :=
  if nodes.isEmpty then .ok []
  else if σ.etcdEndpoints.isEmpty then .ok []
  else
    match env.connectError with
    | some e => .error (.etcd ("connect: " ++ e))
    | none => .ok ((nodes.filter env.stored).map fun id =>
        (id, σ.hint fmt nodes (env.stamp id) id))

/-- Every hint a tick writes is that of a node in the snapshot. -/
theorem mem_tick {nodes : List String} {env : TickEnv} {hints : List (String × HintBody K)}
    (h : σ.tick fmt nodes env = .ok hints) {x : String × HintBody K} (hx : x ∈ hints) :
    σ.etcdEndpoints ≠ [] ∧ x.1 ∈ nodes ∧ x.2 = σ.hint fmt nodes (env.stamp x.1) x.1 := by
  unfold tick at h
  split at h
  · cases h
    cases hx
  · split at h
    · cases h
      cases hx
    · next hends =>
      split at h
      · cases h
      · cases h
        obtain ⟨id, hid, rfl⟩ := List.mem_map.mp hx
        exact ⟨fun he => hends (by rw [he]; rfl), (List.mem_filter.mp hid).1, rfl⟩

/-- An etcd that answers every call. -/
def answering (stamp : String → String) : TickEnv where
  connectError := none
  stored := fun _ => true
  stamp := stamp

theorem tick_answering (hends : σ.etcdEndpoints ≠ []) (nodes : List String)
    (stamp : String → String) :
    σ.tick fmt nodes (answering stamp) =
      .ok (nodes.map fun id => (id, σ.hint fmt nodes (stamp id) id)) := by
  unfold tick
  split
  · next h => rw [List.isEmpty_iff.mp h]; rfl
  · rw [if_neg (by simpa using hends)]
    dsimp only [answering]
    rw [List.filter_eq_self.mpr fun _ _ => rfl]

/-- A tick can write a drain hint exactly if etcd is configured, the cluster is idle and a node
    draws too much. -/
theorem exists_drain_iff (nodes : List String) :
    (∃ env hints, σ.tick fmt nodes env = .ok hints ∧ ∃ x ∈ hints, x.2.drain = true) ↔
      σ.etcdEndpoints ≠ [] ∧ σ.clusterIdle nodes = true ∧ ∃ id ∈ nodes, σ.hot id = true := by
  constructor
  · rintro ⟨env, hints, htick, x, hx, hdrain⟩
    obtain ⟨hends, hid, hhint⟩ := σ.mem_tick fmt htick hx
    rw [hhint] at hdrain
    obtain ⟨hidle, hhot⟩ := Bool.and_eq_true_iff.mp hdrain
    exact ⟨hends, hidle, x.1, hid, hhot⟩
  · rintro ⟨hends, hidle, id, hid, hhot⟩
    refine ⟨_, _, σ.tick_answering fmt hends nodes fun _ => "", _, List.mem_map_of_mem hid, ?_⟩
    exact Bool.and_eq_true_iff.mpr ⟨hidle, hhot⟩

/-- Some pool has its `max_queue` requests in flight. -/
def Bursting : Prop :=
  ∃ model role pool, σ.pools model role = some pool ∧ σ.admission.maxQueue ≤ pool.inflight

end TickState

end

namespace TickState

/-- Exact sums do not depend on the order of the nodes. -/
theorem avgLoad_perm (σ : TickState ℚ) {nodes nodes' : List String} (h : nodes.Perm nodes') :
    σ.avgLoad nodes = σ.avgLoad nodes' := by
  unfold avgLoad
  rw [h.length_eq, (h.map _).foldl_op_eq]

/-- A burst ends all draining, over exact loads, exactly if there is no etcd, or the average
    load is at least the idle bound, or no node draws more than the threshold: the burst
    itself plays no part. -/
theorem burst_stops_draining_iff (fmt : Nat → ℚ → String) (σ : TickState ℚ) :
    (σ.Bursting → ∀ nodes env hints, nodes.Perm σ.nodes.ids →
      σ.tick fmt nodes env = .ok hints → ∀ x ∈ hints, x.2.drain = false) ↔
      (σ.Bursting → σ.etcdEndpoints = [] ∨
        σ.autoscaler.idleUtilPct ≤ σ.avgLoad σ.nodes.ids * 100 ∨
        ∀ id ∈ σ.nodes.ids, (σ.loads id).powerWatts ≤ σ.autoscaler.highWattThreshold) := by
  refine forall_congr' fun _ => ?_
  constructor
  · intro h
    by_contra hno
    push Not at hno
    obtain ⟨hends, hidle, id, hid, hhot⟩ := hno
    obtain ⟨env, hints, htick, x, hx, hdrain⟩ := (σ.exists_drain_iff fmt σ.nodes.ids).mpr
      ⟨hends, decide_eq_true hidle, id, hid, decide_eq_true hhot⟩
    rw [h _ env hints (List.Perm.refl _) htick x hx] at hdrain
    cases hdrain
  · intro h nodes env hints hperm htick x hx
    by_contra hdrain
    obtain ⟨hends, hidle, id, hid, hhot⟩ := (σ.exists_drain_iff fmt nodes).mp
      ⟨env, hints, htick, x, hx, by simpa using hdrain⟩
    have hidle := of_decide_eq_true hidle
    rw [σ.avgLoad_perm hperm] at hidle
    rcases h with h | h | h
    · exact hends h
    · exact absurd hidle (not_lt.mpr h)
    · exact absurd (of_decide_eq_true hhot) (not_lt.mpr (h id (hperm.subset hid)))

/-- One registered node that serves `m`, idle and above the threshold, and a full pool. -/
def hotUnderBurst : TickState ℚ where
  autoscaler := { enabled := true, idleUtilPct := 15, highWattThreshold := 350 }
  etcdEndpoints := ["etcd:2379"]
  nodes := NodeRegistry.new.upsert
    { nodeId := "n", role := 3, model := some "m", cordoned := false, ready := true,
      draining := false, adapters := [] }
  loads := fun _ => { queueDepth := 0, totalBlocks := 0, powerWatts := 400 }
  admission := { maxQueue := 1, waitQueuePerTenant := 0 }
  pools := fun _ _ => some { Pool.empty with inflight := 1, permits := 1 }

/-- A full pool does not keep the tick from draining: the request in flight is in no node's
    reported queue. -/
theorem burst_drains_hot_node :
    ¬ ∀ (fmt : Nat → ℚ → String) (σ : TickState ℚ), σ.Bursting →
      ∀ nodes env hints, nodes.Perm σ.nodes.ids → σ.tick fmt nodes env = .ok hints →
        ∀ x ∈ hints, x.2.drain = false := by
  intro h
  have hburst : hotUnderBurst.Bursting := ⟨"m", 3, _, rfl, by decide⟩
  obtain ⟨env, hints, htick, x, hx, hdrain⟩ :=
    (hotUnderBurst.exists_drain_iff (fun _ _ => "") ["n"]).mpr
      ⟨by decide, by decide +kernel, "n", List.mem_cons_self, by decide +kernel⟩
  rw [h _ _ hburst ["n"] env hints (List.Perm.refl _) htick x hx] at hdrain
  cases hdrain

end TickState

end Cognitora.Router
