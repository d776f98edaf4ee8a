/-
  The node record (cgn-agent `src/health.rs`, `node_record_json`; cgn-router
  `src/cluster/registry.rs`, `NodeEntry`).

  An agent publishes what it knows of itself as a JSON text, and the router deserializes the text
  into a `NodeEntry`. Printing and reading the text is serde_json's (`RecordFormat`); what the
  model has is which entry a record stands for, and what the router's parts take from an entry.
  `Faithful` is what a proof may assume of the text: if the router reads an entry from the record
  of an agent, it is the one the record stands for. It may read none, as for a power value that is
  not finite, which is printed as `null`.
-/
import Cognitora.Router.CacheState
import Cognitora.Router.Registry

namespace Cognitora.Router

open Cognitora.Agent (EngineStats)

inductive NodeRoleCfg where
  | prefill
  | decode
  | both
  deriving DecidableEq

def roleToInt : NodeRoleCfg → Int
  | .decode => 2
  | .prefill => 1
  | .both => 3

/-- What the agent knows when it builds its record. -/
structure NodeStatus where
  nodeId : String
  listen : String
  requireMtls : Bool
  role : NodeRoleCfg
  gpuIndex : Option UInt32
  /-- The configured models with the names of their adapters. -/
  models : List (String × List String)
  stats : EngineStats
  powerWatts : Float32
  wattLimit : Float32
  gpuName : String
  gpuVendor : String
  vramTotalMb : UInt64
  kvEpoch : UInt64
  ready : Bool
  draining : Bool

/-- The router's `NodeEntry` as it is deserialized. -/
structure NodeDoc where
  nodeId : String
  address : String
  role : Int
  gpuIndex : Option UInt32
  model : Option String
  queueDepth : UInt32
  freeBlocks : UInt32
  totalBlocks : UInt32
  powerWatts : Float32
  wattLimit : Float32
  gpuName : String
  gpuVendor : String
  vramTotalMb : UInt64
  cordoned : Bool
  kvEpoch : UInt64
  ready : Bool
  draining : Bool
  adapters : List String

namespace NodeDoc

/-- What the registry keeps of it. -/
def toEntry (n : NodeDoc) : NodeEntry where
  nodeId := n.nodeId
  role := n.role
  model := n.model
  cordoned := n.cordoned
  ready := n.ready
  draining := n.draining
  adapters := n.adapters

/-- What `reconcile` reads of it. -/
def toHeartbeat (n : NodeDoc) : Heartbeat where
  nodeId := n.nodeId
  kvEpoch := n.kvEpoch.toNat
  freeBlocks := n.freeBlocks
  totalBlocks := n.totalBlocks

/-- What `reconcile` notes of it. -/
def snapshot (n : NodeDoc) : Snapshot :=
  ⟨n.kvEpoch.toNat, n.freeBlocks, n.totalBlocks⟩

end NodeDoc

namespace NodeStatus

def address (s : NodeStatus) : String :=
  (if s.requireMtls then "https" else "http") ++ "://" ++ s.listen

def model (s : NodeStatus) : Option String :=
  s.models.head?.map Prod.fst

def adapters (s : NodeStatus) : List String :=
  (s.models.head?.map Prod.snd).getD []

/-- The entry the record stands for. No agent says that its node is cordoned, which is
    `#[serde(default)]`. -/
def doc (s : NodeStatus) : NodeDoc where
  nodeId := s.nodeId
  address := s.address
  role := roleToInt s.role
  gpuIndex := s.gpuIndex
  model := s.model
  queueDepth := s.stats.queueDepth
  freeBlocks := s.stats.freeBlocks
  totalBlocks := s.stats.totalBlocks
  powerWatts := s.powerWatts
  wattLimit := s.wattLimit
  gpuName := s.gpuName
  gpuVendor := s.gpuVendor
  vramTotalMb := s.vramTotalMb
  cordoned := false
  kvEpoch := s.kvEpoch
  ready := s.ready
  draining := s.draining
  adapters := s.adapters

end NodeStatus

/-- serde_json, as far as node records pass through it. -/
structure RecordFormat where
  /-- `node_record_json(..).to_string()`. -/
  toString : NodeStatus → String
  /-- `serde_json::from_str::<NodeEntry>`. -/
  fromStr : String → Option NodeDoc

/-- The round trip: what the router reads of the agent's record, if anything, is the entry it
    stands for. -/
def RecordFormat.Faithful (fmt : RecordFormat) (s : NodeStatus) : Prop :=
  ∀ n, fmt.fromStr (fmt.toString s) = some n → n = s.doc

end Cognitora.Router
