/-
  Pruning the prefix index from what heartbeats report (cgn-router
  `src/cluster/cache_state.rs`).

  `reconcile` compares a heartbeat with the node's last one. An epoch that changed forgets all
  claims of the node, a drop in free blocks or few free blocks its older ones. Without a last
  heartbeat there is nothing to compare the epoch with.

  Of the router's `NodeEntry` the fields are kept that `reconcile` reads. The prune counters
  are left out.
-/
import Cognitora.Agent.CacheState
import Cognitora.Core.PrefixClaims

namespace Cognitora.Router

open Cognitora.Core
open Cognitora.Agent (EngineStats)

inductive PruneReason where
  | epochReset
  | evictionBurst
  | pressure
  deriving DecidableEq

structure Heartbeat where
  nodeId : String
  kvEpoch : Nat
  freeBlocks : UInt32
  totalBlocks : UInt32

structure Snapshot where
  kvEpoch : Nat
  freeBlocks : UInt32
  totalBlocks : UInt32

/-- `Snapshot::default`. -/
def Snapshot.zero : Snapshot := ⟨0, 0, 0⟩

/-- Per-node previous heartbeat. -/
abbrev CacheStateTracker := AList fun _ : String => Snapshot

namespace CacheStateTracker

/-- Why the heartbeat prunes, if it does. -/
def reason (tracker : CacheStateTracker) (entry : Heartbeat) : Option PruneReason :=
  let hadPrev := (tracker.lookup entry.nodeId).isSome
  let prev := (tracker.lookup entry.nodeId).getD Snapshot.zero
  if hadPrev && entry.kvEpoch != prev.kvEpoch then some .epochReset
  else if 0 < entry.totalBlocks && 0 < prev.totalBlocks then
    let drop := prev.freeBlocks.toNat - entry.freeBlocks.toNat
    let burstThreshold := max (entry.totalBlocks.toNat / 10) 32
    if burstThreshold ≤ drop then some .evictionBurst
    else if EngineStats.lowOnBlocks entry.freeBlocks entry.totalBlocks then some .pressure
    else none
  else if 0 < entry.totalBlocks &&
      EngineStats.lowOnBlocks entry.freeBlocks entry.totalBlocks then some .pressure
  else none

end CacheStateTracker

/-- What pruning for the reason does to the index. -/
def PruneReason.op (ttl : Nat) (nodeId : String) : PruneReason → PrefixIndex.Op
  | .epochReset => .forgetNode nodeId
  | .evictionBurst => .forgetNodeStale nodeId (ttl / 4)
  | .pressure => .forgetNodeStale nodeId (ttl / 2)

namespace CacheStateTracker

/-- The operation on the index, if any, of `reconcile`. -/
def prune (tracker : CacheStateTracker) (ttl : Nat) (entry : Heartbeat) : List PrefixIndex.Op :=
  ((tracker.reason entry).map (PruneReason.op ttl entry.nodeId)).toList

/-- The tracker after `reconcile`. -/
def record (tracker : CacheStateTracker) (entry : Heartbeat) : CacheStateTracker :=
  tracker.insert entry.nodeId ⟨entry.kvEpoch, entry.freeBlocks, entry.totalBlocks⟩

def forgetNode (tracker : CacheStateTracker) (nodeId : String) : CacheStateTracker :=
  tracker.erase nodeId

/-- A heartbeat only touches the claims of its own node. -/
theorem forgets_of_mem_prune {tracker : CacheStateTracker} {ttl : Nat} {entry : Heartbeat}
    {op : PrefixIndex.Op} (hop : op ∈ tracker.prune ttl entry) :
    op = .forgetNode entry.nodeId ∨ ∃ olderThan, op = .forgetNodeStale entry.nodeId olderThan := by
  obtain ⟨reason, _, rfl⟩ : ∃ r, tracker.reason entry = some r ∧ r.op ttl entry.nodeId = op := by
    simpa [prune] using hop
  cases reason with
  | epochReset => exact .inl rfl
  | evictionBurst => exact .inr ⟨_, rfl⟩
  | pressure => exact .inr ⟨_, rfl⟩

/-- An epoch that differs from the last one forgets the node. -/
theorem prune_of_epoch_ne {tracker : CacheStateTracker} (ttl : Nat) {entry : Heartbeat}
    {prev : Snapshot} (hprev : tracker.lookup entry.nodeId = some prev)
    (hne : entry.kvEpoch ≠ prev.kvEpoch) :
    tracker.prune ttl entry = [.forgetNode entry.nodeId] := by
  simp [prune, reason, hprev, hne, PruneReason.op]

end CacheStateTracker

end Cognitora.Router
