/-
  Picking nodes for a request (cgn-router `src/routing/selector.rs`, `src/routing/score.rs`).

  `pickExcluding` filters the candidates of `nodes_for` by the exclude list and the model's
  capability constraints, drops nodes over their watt limit unless all are, and takes the best
  score. `pickPair` picks a prefill node that way and then a decode node among the others by a
  loop of its own, which does not look at the capability constraints; without another
  candidate both are the prefill node.

  The registry keeps of an entry what it reads itself; the other fields a selection reads are
  `SharedState.reports`, by node id. `f32` is `Float32`, BLAKE3 is the parameter `hash`. Not
  modelled: metrics and tracing.

  `rendezvous_minimally_disruptive`: the node of a session does not depend on the order of the
  nodes, and moves only with a node it gains or loses.
-/
import Cognitora.Core.Error
import Cognitora.Core.Prefix
import Cognitora.Lib.Select
import Cognitora.Router.Registry

namespace Cognitora.Router

open Cognitora.Lib Cognitora.Core

/-- The fields of a `NodeEntry` that the registry stores for others to read. -/
structure NodeReport where
  /-- gRPC endpoint. -/
  address : String
  queueDepth : UInt32
  freeBlocks : UInt32
  totalBlocks : UInt32
  powerWatts : Float32
  /-- Soft power cap in watts; 0 is uncapped. -/
  wattLimit : Float32
  /-- Empty is unknown. -/
  gpuName : String
  gpuVendor : String
  /-- Total GPU memory in MiB; 0 is unknown. -/
  vramTotalMb : UInt64

/-- The capability constraints of a `[models.*]` block. -/
structure ModelConfig where
  minVramMb : Option UInt64
  requireGpu : Option String

structure DisaggConfig where
  enabled : Bool
  colocateBelowTokens : UInt32

structure RoutingPolicy where
  kv : Float32
  load : Float32
  power : Float32
  capacity : Float32
  session : Float32

/-- The part of the router's state that routing reads. -/
structure SharedState where
  nodes : NodeRegistry
  reports : String → NodeReport
  models : String → Option ModelConfig
  disagg : DisaggConfig
  policy : RoutingPolicy
  index : PrefixIndex
  /-- The clock reading of the lookups in the index. -/
  clock : Nat
  nodeInflight : String → UInt32

/-- What is being routed. -/
structure RouteKey where
  model : String
  /-- The model, plus the tenant under KV isolation. -/
  salt : String
  session : Option String
  tokenIds : List UInt32

/-! ## Scores -/

structure Score where
  total : Float32
  kv : Float32
  load : Float32
  power : Float32
  capacity : Float32

/-- `f32::clamp(0.0, 1.0)`. -/
def clampUnit (x : Float32) : Float32 :=
  let x := if x < 0 then 0 else x
  if x > 1 then 1 else x

/-- `f32::max`: the other one if one is NaN. -/
def f32Max (x y : Float32) : Float32 :=
  if x.isNaN then y else if y.isNaN then x else if x < y then y else x

def scoreNode (policy : RoutingPolicy) (node : NodeReport) (queueDepth : UInt32)
    (kvOverlap peerMaxPower : Float32) : Score :=
  let load := clampUnit (1 - queueDepth.toFloat32 / 64)
  let power := if peerMaxPower > 0 then clampUnit (1 - node.powerWatts / peerMaxPower) else 1
  let capacity :=
    if node.totalBlocks > 0 then
      clampUnit (node.freeBlocks.toFloat32 / node.totalBlocks.toFloat32)
    else 0
  { total := policy.kv * kvOverlap + policy.load * load + policy.power * power +
      policy.capacity * capacity
    kv := kvOverlap
    load := load
    power := power
    capacity := capacity }

/-- Best queue estimate for scoring. -/
def SharedState.effectiveQueue (σ : SharedState) (n : NodeEntry) : UInt32 :=
  max (σ.reports n.nodeId).queueDepth (σ.nodeInflight n.nodeId)

/-- The highest power draw among the nodes. -/
def SharedState.peerMaxPower (σ : SharedState) (nodes : List NodeEntry) : Float32 :=
  (nodes.map fun n => (σ.reports n.nodeId).powerWatts).foldl f32Max 0

/-! ## Candidates -/

/-- `to_ascii_lowercase`. -/
def asciiLower (s : String) : String :=
  s.map Char.toLower

/-- `str::contains`. -/
def containsText (s pattern : String) : Bool :=
  decide (pattern.toList <:+: s.toList)

/-- A node that reports no VRAM passes. -/
def NodeReport.meetsVram (r : NodeReport) (minVram : UInt64) : Bool :=
  r.vramTotalMb == 0 || decide (minVram ≤ r.vramTotalMb)

/-- A node that reports no GPU identity passes. -/
def NodeReport.meetsGpu (r : NodeReport) (req : String) : Bool :=
  (r.gpuName.isEmpty && r.gpuVendor.isEmpty) ||
    containsText (asciiLower r.gpuName) (asciiLower req) ||
    containsText (asciiLower r.gpuVendor) (asciiLower req)

namespace SharedState

variable (σ : SharedState)

/-- The node meets the capability constraints of the model. -/
def capable (model : String) (n : NodeEntry) : Bool :=
  (σ.models model).all fun mc =>
    mc.minVramMb.all (σ.reports n.nodeId).meetsVram &&
      mc.requireGpu.all (σ.reports n.nodeId).meetsGpu

def underCap (n : NodeEntry) : Bool :=
  decide ((σ.reports n.nodeId).wattLimit ≤ 0) ||
    decide ((σ.reports n.nodeId).powerWatts < (σ.reports n.nodeId).wattLimit)

/-- The candidates of `pick_excluding` before the watt cap. -/
def candidates (model : String) (role : NodeRole) (exclude : List String) : List NodeEntry :=
  ((σ.nodes.nodesFor role (some model)).filter fun n => !exclude.contains n.nodeId).filter
    (σ.capable model)

end SharedState

/-- Rendezvous hash: the candidate with the highest `H(session, node)`, the last of equals. -/
def rendezvous (hash : List UInt8 → Digest) (session : String) (nodes : List NodeEntry) :
    Option NodeEntry :=
  let keyOf := fun n : NodeEntry =>
    (hash (utf8 session.toList ++ [0] ++ utf8 n.nodeId.toList)).toList
  best (fun prev n => decide (keyOf n < keyOf prev)) nodes

/-! ## Picks -/

structure RoutingDecision where
  node : NodeEntry
  score : Score
  overlap : Float32
  nCandidates : Nat
  /-- Sequence-chained prefix digests of the request. -/
  digests : List Digest

def NodeRole.debug : NodeRole → String
  | .unspecified => "Unspecified"
  | .prefill => "Prefill"
  | .decode => "Decode"
  | .both => "Both"

def noLiveNode (model : String) (role : NodeRole) (exclude : List String) : Error :=
  .unavailable ("no live node serving model " ++ model ++ " for role " ++ role.debug ++
    if exclude.isEmpty then "" else
      " (excluded after failed dispatch: [" ++ ", ".intercalate (exclude.map String.quote) ++ "])")

section

variable (hash : List UInt8 → Digest) (σ : SharedState) (key : RouteKey)

/-- The share of the prompt's chunks the node is believed to hold. -/
def overlapOf (n : NodeEntry) : Float32 :=
  let digests := hashSeqChunks hash key.salt key.tokenIds
  if digests.isEmpty then 0 else
    let chunks := ((σ.index.longestPrefixOverlap σ.clock digests).lookup n.nodeId).getD 0
    Float32.ofNat chunks / Float32.ofNat digests.length

/-- The score of a candidate, with the bonus of the session's node. -/
def scoreOf (nodes : List NodeEntry) (n : NodeEntry) : Score :=
  let s := scoreNode σ.policy (σ.reports n.nodeId) (σ.effectiveQueue n) (overlapOf hash σ key n)
    (σ.peerMaxPower nodes)
  let sessionNode := (key.session.bind fun s => rendezvous hash s nodes).map NodeEntry.nodeId
  if sessionNode = some n.nodeId then { s with total := s.total + σ.policy.session } else s

/-- Like `pick`, but never returns a node whose id is in `exclude`. -/
def pickExcluding (role : NodeRole) (exclude : List String) : Except Error RoutingDecision :=
  let nodes := retainIfAny σ.underCap (σ.candidates key.model role exclude)
  match best (fun prev s => decide (prev.2.total ≥ s.2.total))
      (nodes.map fun n => (n, scoreOf hash σ key nodes n)) with
  | none => .error (noLiveNode key.model role exclude)
  | some (node, score) =>
    .ok
      { node
        score
        overlap := overlapOf hash σ key node
        nCandidates := nodes.length
        digests := hashSeqChunks hash key.salt key.tokenIds }

def pick (role : NodeRole) : Except Error RoutingDecision :=
  pickExcluding hash σ key role []

/-- The candidates for the decode half of a pair, before the watt cap. -/
def SharedState.distinct (model : String) (role : NodeRole) (exclude : List String)
    (prefillId : String) : List NodeEntry :=
  (σ.nodes.nodesFor role (some model)).filter fun n =>
    n.nodeId != prefillId && !exclude.contains n.nodeId

/-- Pair pick for disaggregation; without a second node the same node twice. -/
def pickPair (prefillRole decodeRole : NodeRole) (exclude : List String) :
    Except Error (RoutingDecision × RoutingDecision) :=
  match pickExcluding hash σ key prefillRole exclude with
  | .error e => .error e
  | .ok prefill =>
    let distinct :=
      retainIfAny σ.underCap (σ.distinct key.model decodeRole exclude prefill.node.nodeId)
    match best (fun prev s => decide (prev.2.total ≥ s.2.total))
        (distinct.map fun n =>
          (n, scoreNode σ.policy (σ.reports n.nodeId) (σ.effectiveQueue n) 0
            (σ.peerMaxPower distinct))) with
    | none => .ok (prefill, prefill)
    | some (node, score) =>
      .ok (prefill,
        { node
          score
          overlap := 0
          nCandidates := distinct.length
          digests := prefill.digests })

end

/-! ## What a pick returns -/

section

variable {hash : List UInt8 → Digest} {σ : SharedState} {key : RouteKey}

theorem SharedState.mem_candidates {model : String} {role : NodeRole} {exclude : List String}
    {n : NodeEntry} :
    n ∈ σ.candidates model role exclude ↔
      n ∈ σ.nodes.nodesFor role (some model) ∧ n.nodeId ∉ exclude ∧ σ.capable model n = true := by
  unfold SharedState.candidates
  rw [List.mem_filter, List.mem_filter, Bool.not_eq_true', List.contains_eq_mem,
    decide_eq_false_iff_not, and_assoc]

theorem SharedState.mem_distinct {model : String} {role : NodeRole} {exclude : List String}
    {prefillId : String} {n : NodeEntry} :
    n ∈ σ.distinct model role exclude prefillId ↔
      n ∈ σ.nodes.nodesFor role (some model) ∧ n.nodeId ≠ prefillId ∧ n.nodeId ∉ exclude := by
  unfold SharedState.distinct
  rw [List.mem_filter, Bool.and_eq_true, bne_iff_ne, Bool.not_eq_true', List.contains_eq_mem,
    decide_eq_false_iff_not]

/-- A pick returns a candidate that survives the watt cap. -/
theorem pickExcluding_ok {role : NodeRole} {exclude : List String} {d : RoutingDecision}
    (h : pickExcluding hash σ key role exclude = .ok d) :
    d.node ∈ retainIfAny σ.underCap (σ.candidates key.model role exclude) ∧
      d.digests = hashSeqChunks hash key.salt key.tokenIds := by
  unfold pickExcluding at h
  dsimp only at h
  split at h
  · cases h
  · next node score hbest =>
    cases h
    obtain ⟨n, hn, heq⟩ := List.mem_map.mp (mem_of_best hbest)
    cases heq
    exact ⟨hn, rfl⟩

theorem pickExcluding_isOk_iff (hash : List UInt8 → Digest) (σ : SharedState) (key : RouteKey)
    (role : NodeRole) (exclude : List String) :
    (∃ d, pickExcluding hash σ key role exclude = .ok d) ↔
      σ.candidates key.model role exclude ≠ [] := by
  rw [← not_iff_not, not_not, ← retainIfAny_eq_nil_iff σ.underCap,
    ← List.map_eq_nil_iff (f := fun n => (n, scoreOf hash σ key
      (retainIfAny σ.underCap (σ.candidates key.model role exclude)) n)),
    ← best_eq_none_iff fun prev s => decide (prev.2.total ≥ s.2.total)]
  unfold pickExcluding
  dsimp only
  split
  · next hbest =>
    rw [hbest]
    simp
  · next hbest =>
    rw [hbest]
    simp

/-- A pair is a pick for the prefill role and a decode node: another candidate that survives
    the watt cap, or the prefill node again if there is no other. -/
theorem pickPair_ok {prefillRole decodeRole : NodeRole} {exclude : List String}
    {p d : RoutingDecision} (h : pickPair hash σ key prefillRole decodeRole exclude = .ok (p, d)) :
    pickExcluding hash σ key prefillRole exclude = .ok p ∧ d.digests = p.digests ∧
      (σ.distinct key.model decodeRole exclude p.node.nodeId = [] ∧ d = p ∨
        d.node ∈ retainIfAny σ.underCap
          (σ.distinct key.model decodeRole exclude p.node.nodeId)) := by
  unfold pickPair at h
  split at h
  · cases h
  · next prefill hpick =>
    dsimp only at h
    split at h
    · next hbest =>
      cases h
      rw [best_eq_none_iff, List.map_eq_nil_iff, retainIfAny_eq_nil_iff] at hbest
      exact ⟨hpick, rfl, Or.inl ⟨hbest, rfl⟩⟩
    · next node score hbest =>
      cases h
      obtain ⟨n, hn, heq⟩ := List.mem_map.mp (mem_of_best hbest)
      cases heq
      exact ⟨hpick, rfl, Or.inr hn⟩

theorem pickPair_isOk_iff (hash : List UInt8 → Digest) (σ : SharedState) (key : RouteKey)
    (prefillRole decodeRole : NodeRole) (exclude : List String) :
    (∃ pd, pickPair hash σ key prefillRole decodeRole exclude = .ok pd) ↔
      σ.candidates key.model prefillRole exclude ≠ [] := by
  rw [← pickExcluding_isOk_iff hash]
  unfold pickPair
  cases pickExcluding hash σ key prefillRole exclude with
  | error e => simp
  | ok p =>
    dsimp only
    split
    · simp
    · simp

end

/-! ## Session affinity -/

/-- What `rendezvous` hashes for a node. -/
def affinityBytes (session : String) (n : NodeEntry) : List UInt8 :=
  utf8 session.toList ++ [0] ++ utf8 n.nodeId.toList

theorem rendezvous_eq_best (hash : List UInt8 → Digest) (session : String)
    (nodes : List NodeEntry) :
    rendezvous hash session nodes =
      best (fun prev n => decide ((hash (affinityBytes session n)).toList <
        (hash (affinityBytes session prev)).toList)) nodes :=
  rfl

/-- No ties: the session is fixed, so what is hashed determines the node id. -/
theorem affinity_inj {hash : List UInt8 → Digest} {session : String} {nodes : List NodeEntry}
    (hids : (nodes.map NodeEntry.nodeId).Nodup)
    (hinj : Set.InjOn hash {b | ∃ n ∈ nodes, b = affinityBytes session n}) :
    ∀ n ∈ nodes, ∀ m ∈ nodes, (hash (affinityBytes session n)).toList =
      (hash (affinityBytes session m)).toList → n = m := by
  intro n hn m hm heq
  have hbytes := hinj ⟨n, hn, rfl⟩ ⟨m, hm, rfl⟩ (Vector.toList_inj.mp heq)
  exact List.inj_on_of_nodup_map hids hn hm (utf8_toList_inj (List.append_cancel_left hbytes))

/-- The node of a session does not depend on the order of the nodes, stays when another node is
    removed, and changes only to a node that is added. -/
theorem rendezvous_minimally_disruptive (hash : List UInt8 → Digest) (session : String)
    (nodes : List NodeEntry) (hids : (nodes.map NodeEntry.nodeId).Nodup)
    (hinj : Set.InjOn hash {b | ∃ n ∈ nodes, b = affinityBytes session n}) :
    (∀ order : List NodeEntry, order.Perm nodes →
        rendezvous hash session order = rendezvous hash session nodes) ∧
      (∀ l n r, nodes = l ++ n :: r → rendezvous hash session nodes ≠ some n →
        rendezvous hash session (l ++ r) = rendezvous hash session nodes) ∧
      ∀ l n r, nodes = l ++ r → n.nodeId ∉ nodes.map NodeEntry.nodeId →
        Set.InjOn hash {b | ∃ m ∈ n :: nodes, b = affinityBytes session m} →
        rendezvous hash session (l ++ n :: r) ≠ rendezvous hash session nodes →
          rendezvous hash session (l ++ n :: r) = some n := by
  simp only [rendezvous_eq_best]
  refine ⟨?order, ?remove, ?add⟩
  case order => exact fun order hperm => best_perm (affinity_inj hids hinj) hperm
  case remove =>
    rintro l n r rfl hne
    exact ((best_insert (affinity_inj hids hinj)).resolve_left hne).symm
  case add =>
    rintro l n r rfl hn hadded hne
    have hperm : (l ++ n :: r).Perm (n :: (l ++ r)) := List.perm_middle
    have hids' : ((l ++ n :: r).map NodeEntry.nodeId).Nodup := by
      rw [(hperm.map NodeEntry.nodeId).nodup_iff, List.map_cons, List.nodup_cons]
      exact ⟨hn, hids⟩
    have hinj' : Set.InjOn hash {b | ∃ m ∈ l ++ n :: r, b = affinityBytes session m} := by
      simpa only [hperm.mem_iff] using hadded
    exact (best_insert (affinity_inj hids' hinj')).resolve_right hne

/-- A node that serves everything, under the given id. -/
def NodeEntry.named (id : String) : NodeEntry where
  nodeId := id
  role := 0
  model := none
  cordoned := false
  ready := true
  draining := false
  adapters := []

/-- BLAKE3 on what is hashed for the session `chat-1` and the nodes `a`, `b` and `c`. -/
def blake3Affinity (b : List UInt8) : Digest :=
  if b = affinityBytes "chat-1" (.named "a") then
    #v[114, 106, 184, 83, 67, 188, 43, 1, 159, 86, 72, 116, 234, 62, 94, 235,
       173, 108, 4, 145, 192, 161, 19, 204, 95, 112, 38, 92, 232, 147, 134, 161]
  else if b = affinityBytes "chat-1" (.named "b") then
    #v[190, 46, 72, 133, 113, 214, 197, 177, 235, 166, 195, 237, 183, 203, 28, 29,
       139, 145, 164, 150, 1, 206, 126, 227, 100, 180, 49, 133, 159, 75, 127, 234]
  else if b = affinityBytes "chat-1" (.named "c") then
    #v[243, 37, 169, 123, 42, 109, 59, 212, 169, 78, 173, 171, 102, 29, 242, 104,
       186, 178, 49, 44, 163, 237, 216, 226, 170, 195, 20, 255, 172, 48, 30, 227]
  else zeroDigest

/-- Two nodes in another order, without the loser, and with a third one. -/
theorem rendezvous_two_nodes :
    ([NodeEntry.named "a", .named "b"].map NodeEntry.nodeId).Nodup ∧
      Set.InjOn blake3Affinity
        {b | ∃ n ∈ [NodeEntry.named "c", .named "a", .named "b"], b = affinityBytes "chat-1" n} ∧
      rendezvous blake3Affinity "chat-1" [.named "a", .named "b"] = some (.named "b") ∧
      rendezvous blake3Affinity "chat-1" [.named "b", .named "a"] = some (.named "b") ∧
      rendezvous blake3Affinity "chat-1" [.named "b"] = some (.named "b") ∧
      rendezvous blake3Affinity "chat-1" [.named "a", .named "c", .named "b"] =
        some (.named "c") := by
  have hbytes : ∀ n ∈ [NodeEntry.named "c", .named "a", .named "b"],
      ∀ m ∈ [NodeEntry.named "c", .named "a", .named "b"],
        blake3Affinity (affinityBytes "chat-1" n) = blake3Affinity (affinityBytes "chat-1" m) →
          affinityBytes "chat-1" n = affinityBytes "chat-1" m := by
    decide +kernel
  have hthree : Set.InjOn blake3Affinity
      {b | ∃ n ∈ [NodeEntry.named "c", .named "a", .named "b"], b = affinityBytes "chat-1" n} := by
    rintro _ ⟨n, hn, rfl⟩ _ ⟨m, hm, rfl⟩ heq
    exact hbytes n hn m hm heq
  have htwo : Set.InjOn blake3Affinity
      {b | ∃ n ∈ [NodeEntry.named "a", .named "b"], b = affinityBytes "chat-1" n} := by
    refine hthree.mono ?_
    rintro _ ⟨n, hn, rfl⟩
    exact ⟨n, List.mem_cons_of_mem _ hn, rfl⟩
  have hwinner : rendezvous blake3Affinity "chat-1" [.named "a", .named "b"] =
      some (.named "b") := rfl
  obtain ⟨horder, hremove, hadd⟩ := rendezvous_minimally_disruptive blake3Affinity "chat-1"
    [.named "a", .named "b"] (by decide) htwo
  refine ⟨by decide, hthree, hwinner, ?_, ?_, ?_⟩
  · rw [horder _ (List.Perm.swap _ _ _), hwinner]
  · rw [← hwinner]
    refine hremove [] (.named "a") [.named "b"] rfl ?_
    rw [hwinner]
    simp [NodeEntry.named]
  · refine hadd [.named "a"] (.named "c") [.named "b"] rfl (by decide) hthree ?_
    intro h
    have hcb : some (NodeEntry.named "c") = some (.named "b") := h.trans hwinner
    simp [NodeEntry.named] at hcb

end Cognitora.Router
