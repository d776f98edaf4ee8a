/-
  The router's node registry (cgn-router `src/cluster/registry.rs`) and the records that
  fill it (cgn-agent `src/health.rs`, `node_record_json`).

  Of a `NodeEntry` the fields are kept that the registry itself reads. The record an agent
  publishes has no `cordoned` key; deserializing it sets the flag to serde's default, `false`
  (`NodeRecord.toEntry`).

  The concurrent map is an association list; the order in which `nodes_for` lists nodes is
  not specified in the source. `NodeRegistry` carries the fact that every entry is stored
  under its own id.
-/
import Mathlib.Data.List.AList
import Mathlib.Tactic.Common

namespace Cognitora.Router

/-- `NodeRole` of the protocol. -/
inductive NodeRole where
  | unspecified
  | prefill
  | decode
  | both
  deriving DecidableEq

/-- `NodeRole::try_from(..).unwrap_or(NodeRole::Unspecified)`. -/
def NodeRole.ofInt (n : Int) : NodeRole :=
  if n = 1 then .prefill else if n = 2 then .decode else if n = 3 then .both else .unspecified

/-- What an agent publishes under its node key. -/
structure NodeRecord where
  nodeId : String
  role : Int
  model : Option String
  ready : Bool
  draining : Bool
  adapters : List String

structure NodeEntry where
  nodeId : String
  role : Int
  model : Option String
  /-- Operator-set flag mirrored from the node's cordon key. -/
  cordoned : Bool
  /-- Engine accepts traffic. -/
  ready : Bool
  /-- The agent got SIGTERM: in-flight work finishes, no new work. -/
  draining : Bool
  /-- LoRA adapter names this node serves on top of `model`. -/
  adapters : List String

/-- `serde_json::from_slice::<NodeEntry>` on an agent's record. -/
def NodeRecord.toEntry (r : NodeRecord) : NodeEntry where
  nodeId := r.nodeId
  role := r.role
  model := r.model
  cordoned := false
  ready := r.ready
  draining := r.draining
  adapters := r.adapters

@[simp] theorem NodeRecord.toEntry_nodeId (r : NodeRecord) : r.toEntry.nodeId = r.nodeId := rfl

namespace NodeEntry

/-- Does this node serve `model`, as its base model or an adapter? -/
def serves (n : NodeEntry) (model : String) : Bool :=
  n.model == some model || n.adapters.any (· == model)

def roleEnum (n : NodeEntry) : NodeRole :=
  NodeRole.ofInt n.role

/-- The checks of `nodes_for` that do not depend on the request. -/
def routable (n : NodeEntry) : Bool :=
  !(n.cordoned || n.draining || !n.ready)

/-- The checks of `nodes_for` that do. -/
def matchesRequest (n : NodeEntry) (role : NodeRole) (model : Option String) : Bool :=
  (role == .unspecified || n.roleEnum == role || n.roleEnum == .both) &&
    model.all n.serves

end NodeEntry

/-- Concurrent map keyed by `node_id`. -/
structure NodeRegistry where
  inner : AList fun _ : String => NodeEntry
  keyed : ∀ id e, inner.lookup id = some e → e.nodeId = id

namespace NodeRegistry

def new : NodeRegistry where
  inner := ∅
  keyed := fun _ _ h => absurd h (by simp)

def get (r : NodeRegistry) (id : String) : Option NodeEntry :=
  r.inner.lookup id

def upsert (r : NodeRegistry) (entry : NodeEntry) : NodeRegistry where
  inner := r.inner.insert entry.nodeId entry
  keyed := by
    intro id e h
    by_cases hid : id = entry.nodeId
    · rw [hid, AList.lookup_insert] at h
      rw [hid, ← Option.some.inj h]
    · rw [AList.lookup_insert_ne hid] at h
      exact r.keyed id e h

def forget (r : NodeRegistry) (id : String) : NodeRegistry where
  inner := r.inner.erase id
  keyed := by
    intro j e h
    by_cases hj : j = id
    · rw [hj, AList.lookup_erase] at h
      exact absurd h (by simp)
    · rw [AList.lookup_erase_ne hj] at h
      exact r.keyed j e h

/-- Toggle the `cordoned` flag on a node already in the registry. -/
def setCordon (r : NodeRegistry) (id : String) (cordoned : Bool) : NodeRegistry :=
  match r.get id with
  | none => r
  | some n => if n.cordoned = cordoned then r else r.upsert { n with cordoned := cordoned }

/-- The ids of the nodes in a snapshot. -/
def ids (r : NodeRegistry) : List String :=
  r.inner.keys

/-- Snapshot all live nodes filtered by role and model. -/
def nodesFor (r : NodeRegistry) (role : NodeRole) (model : Option String) : List NodeEntry :=
  (r.inner.entries.map Sigma.snd).filter fun n => n.routable && n.matchesRequest role model

/-! ## Reading the registry after an operation -/

theorem get_upsert (r : NodeRegistry) (e : NodeEntry) (id : String) :
    (r.upsert e).get id = if id = e.nodeId then some e else r.get id := by
  unfold get upsert
  split
  · next h => rw [h, AList.lookup_insert]
  · next h => rw [AList.lookup_insert_ne h]

theorem get_forget (r : NodeRegistry) (id j : String) :
    (r.forget id).get j = if j = id then none else r.get j := by
  unfold get forget
  split
  · next h => rw [h, AList.lookup_erase]
  · next h => rw [AList.lookup_erase_ne h]

theorem get_setCordon (r : NodeRegistry) (id j : String) (cordoned : Bool) :
    (r.setCordon id cordoned).get j =
      if j = id then (r.get id).map fun n => { n with cordoned := cordoned } else r.get j := by
  unfold setCordon
  cases hg : r.get id with
  | none =>
    dsimp only
    split
    · next h => rw [h, hg, Option.map_none]
    · rfl
  | some n =>
    have hid : n.nodeId = id := r.keyed id n hg
    dsimp only
    split
    · next hc =>
      split
      · next h => rw [h, hg, Option.map_some, ← hc]
      · rfl
    · rw [get_upsert, Option.map_some]
      dsimp only
      rw [hid]

theorem mem_ids {r : NodeRegistry} {id : String} : id ∈ r.ids ↔ ∃ n, r.get id = some n := by
  show id ∈ r.inner ↔ _
  rw [← AList.lookup_isSome, Option.isSome_iff_exists]
  rfl

/-- A cordon flag does not change which nodes are registered. -/
theorem ids_setCordon_perm (r : NodeRegistry) (id : String) (cordoned : Bool) :
    (r.setCordon id cordoned).ids.Perm r.ids := by
  unfold setCordon
  cases hg : r.get id with
  | none => exact List.Perm.refl _
  | some n =>
    dsimp only
    split
    · exact List.Perm.refl _
    · have hid : n.nodeId ∈ r.inner.keys := mem_ids.mpr ⟨n, (r.keyed id n hg).symm ▸ hg⟩
      show (r.inner.insert n.nodeId _).keys.Perm r.inner.keys
      rw [AList.keys_insert]
      exact (List.perm_cons_erase hid).symm

/-- `nodes_for` lists exactly the stored entries that pass its checks. -/
theorem mem_nodesFor {r : NodeRegistry} {role : NodeRole} {model : Option String} {n : NodeEntry} :
    n ∈ r.nodesFor role model ↔
      r.get n.nodeId = some n ∧ n.routable = true ∧ n.matchesRequest role model = true := by
  unfold nodesFor
  rw [List.mem_filter, Bool.and_eq_true]
  have hmem : n ∈ r.inner.entries.map Sigma.snd ↔ r.get n.nodeId = some n := by
    constructor
    · intro hm
      obtain ⟨⟨id, e⟩, he, heq⟩ := List.mem_map.mp hm
      have hl : r.inner.lookup id = some e := AList.mem_lookup_iff.mpr he
      have heq : e = n := heq
      rw [heq] at hl
      rw [r.keyed id n hl]
      exact hl
    · intro hg
      exact List.mem_map.mpr ⟨⟨n.nodeId, n⟩, AList.mem_lookup_iff.mp hg, rfl⟩
  rw [hmem]

/-- Some request is answered with the node `id` exactly if its entry is routable. -/
theorem exists_nodesFor_iff (r : NodeRegistry) (id : String) :
    (∃ role model, ∃ n ∈ r.nodesFor role model, n.nodeId = id) ↔
      ∃ n, r.get id = some n ∧ n.routable = true := by
  constructor
  · rintro ⟨role, model, n, hn, rfl⟩
    obtain ⟨hg, hr, _⟩ := mem_nodesFor.mp hn
    exact ⟨n, hg, hr⟩
  · rintro ⟨n, hg, hr⟩
    have hid := r.keyed id n hg
    refine ⟨.unspecified, none, n, mem_nodesFor.mpr ⟨hid ▸ hg, hr, ?_⟩, hid⟩
    rfl

end NodeRegistry

end Cognitora.Router
