/-
  The node registry against etcd (cgn-router `src/cluster/watcher.rs` and the loop of
  `bootstrap_cluster_watch` in `src/state.rs`).

  A run of the watcher gets a snapshot, upserts it, creates a watch without a start revision
  and applies what the watch delivers until the stream ends; the loop then starts the next
  run on the same registry. A run only adds what its snapshot holds. A DELETE that no watch
  delivers (while the watcher is disconnected, between snapshot and watch, or lost with a
  stream that ends) leaves its node in the registry, and a first PUT between snapshot and
  watch leaves its node out.

  `registry_converges_iff`: when the current run has delivered all its watch holds, registry
  and etcd have the same ids exactly if every id without an event since the watch was created
  was then in etcd just in case it was in the registry or in the snapshot when the run began.

  etcd is the list of records under the nodes prefix, each under the id it carries. A watch
  delivers every event committed after its creation, in order. The last three fields of
  `Cluster` are history variables: no step of the program reads them.
-/
import Cognitora.Router.Cordon

namespace Cognitora.Router

/-- Where the current run of the watcher stands. -/
inductive Watcher where
  /-- Between two runs. -/
  | disconnected
  /-- The snapshot was fetched and is not applied yet. -/
  | fetched (snap : List NodeRecord)
  /-- The snapshot is applied; there is no watch yet. -/
  | snapshotted
  /-- Events committed since the watch was created and not delivered yet. -/
  | watching (pending : List WatchEvent)

structure Cluster where
  etcd : List NodeRecord
  registry : NodeRegistry
  watcher : Watcher
  /-- Ids in the registry or in etcd when the current run took its snapshot. -/
  seen : String → Bool
  /-- Ids in etcd when the current watch was created. -/
  base : String → Bool
  /-- Ids with an event since the current watch was created. -/
  touched : List String

def hasNode (records : List NodeRecord) (id : String) : Bool :=
  records.any fun r => r.nodeId == id

namespace Cluster

def registered (s : Cluster) (id : String) : Bool :=
  (s.registry.get id).isSome

def new : Cluster where
  etcd := []
  registry := NodeRegistry.new
  watcher := .disconnected
  seen := fun _ => false
  base := fun _ => false
  touched := []

/-- A committed event reaches the watch, if there is one. -/
def commit (s : Cluster) (id : String) (ev : WatchEvent) : Cluster :=
  match s.watcher with
  | .watching pending =>
    { s with watcher := .watching (pending ++ [ev]), touched := id :: s.touched }
  | _ => s

inductive Action where
  /-- An agent writes its record. -/
  | put (record : NodeRecord)
  /-- A record is deleted, or its lease expires. -/
  | delete (id : String)
  /-- The router's `get` of the nodes prefix. -/
  | get
  | applySnapshot
  | watch
  | deliver
  /-- The stream ends, or a call of the run fails. -/
  | stop
  /-- A cordon task sets a flag. -/
  | cordon (id : String) (flag : Bool)

def act (s : Cluster) : Action → Cluster
  | .put record =>
    { s with etcd := record :: s.etcd.filter fun r => r.nodeId != record.nodeId }.commit
      record.nodeId (.nodePut record)
  | .delete id =>
    -- deleting a key that is not there commits no event
    if hasNode s.etcd id then
      { s with etcd := s.etcd.filter fun r => r.nodeId != id }.commit id (.nodeDelete id)
    else s
  | .get =>
    match s.watcher with
    | .disconnected =>
      { s with
        watcher := .fetched s.etcd
        seen := fun id => s.registered id || hasNode s.etcd id }
    | _ => s
  | .applySnapshot =>
    match s.watcher with
    | .fetched snap =>
      { s with
        registry := snap.foldl (fun r record => r.upsert record.toEntry) s.registry
        watcher := .snapshotted }
    | _ => s
  | .watch =>
    match s.watcher with
    | .snapshotted => { s with watcher := .watching [], base := hasNode s.etcd, touched := [] }
    | _ => s
  | .deliver =>
    match s.watcher with
    | .watching (ev :: rest) =>
      { s with registry := WatchEvent.apply s.registry ev, watcher := .watching rest }
    | _ => s
  | .stop => { s with watcher := .disconnected }
  | .cordon id flag => { s with registry := s.registry.setCordon id flag }

/-! ## Ids -/

theorem hasNode_put (records : List NodeRecord) (record : NodeRecord) (id : String) :
    hasNode (record :: records.filter fun r => r.nodeId != record.nodeId) id =
      (decide (id = record.nodeId) || hasNode records id) := by
  unfold hasNode
  rw [List.any_cons, List.any_filter]
  by_cases h : record.nodeId = id
  · simp [h]
  · have hne : ∀ r : NodeRecord, (r.nodeId != record.nodeId && r.nodeId == id) =
        (r.nodeId == id) := by
      intro r
      by_cases hr : r.nodeId = id
      · simp [hr, Ne.symm h]
      · simp [hr]
    simp only [hne]
    simp [h, Ne.symm h]

theorem hasNode_delete (records : List NodeRecord) (j id : String) :
    hasNode (records.filter fun r => r.nodeId != j) id =
      (decide (id ≠ j) && hasNode records id) := by
  unfold hasNode
  rw [List.any_filter]
  by_cases h : id = j
  · subst h
    simp
  · have hne : ∀ r : NodeRecord, (r.nodeId != j && r.nodeId == id) = (r.nodeId == id) := by
      intro r
      by_cases hr : r.nodeId = id
      · simp [hr, h]
      · simp [hr]
    simp only [hne]
    simp [h]

theorem isSome_get_upsert (r : NodeRegistry) (record : NodeRecord) (id : String) :
    ((r.upsert record.toEntry).get id).isSome =
      (decide (id = record.nodeId) || (r.get id).isSome) := by
  rw [NodeRegistry.get_upsert, NodeRecord.toEntry_nodeId]
  split
  · next h => simp [h]
  · next h => simp [h]

/-- A snapshot adds its ids. -/
theorem isSome_get_snapshot (snap : List NodeRecord) (r : NodeRegistry) (id : String) :
    ((snap.foldl (fun r record => r.upsert record.toEntry) r).get id).isSome =
      ((r.get id).isSome || hasNode snap id) := by
  induction snap generalizing r with
  | nil => simp [hasNode]
  | cons record snap ih =>
    rw [List.foldl_cons, ih, isSome_get_upsert]
    unfold hasNode
    rw [List.any_cons]
    by_cases h : id = record.nodeId
    · simp [h]
    · have hne : (record.nodeId == id) = false := beq_false_of_ne (Ne.symm h)
      simp [h, hne]

theorem isSome_get_setCordon (r : NodeRegistry) (j id : String) (flag : Bool) :
    ((r.setCordon j flag).get id).isSome = (r.get id).isSome := by
  rw [NodeRegistry.get_setCordon]
  split
  · next h => rw [h, Option.isSome_map]
  · rfl

/-- Which ids an event leaves registered depends on which were registered. -/
theorem isSome_get_apply {r r' : NodeRegistry}
    (h : ∀ id, (r.get id).isSome = (r'.get id).isSome) (ev : WatchEvent) (id : String) :
    ((WatchEvent.apply r ev).get id).isSome = ((WatchEvent.apply r' ev).get id).isSome := by
  cases ev with
  | nodePut record =>
    show ((r.upsert record.toEntry).get id).isSome = ((r'.upsert record.toEntry).get id).isSome
    rw [isSome_get_upsert, isSome_get_upsert, h]
  | nodeDelete j =>
    show ((r.forget j).get id).isSome = ((r'.forget j).get id).isSome
    rw [NodeRegistry.get_forget, NodeRegistry.get_forget]
    split
    · rfl
    · exact h id
  | cordonPut j =>
    show ((r.setCordon j true).get id).isSome = ((r'.setCordon j true).get id).isSome
    rw [isSome_get_setCordon, isSome_get_setCordon, h]
  | cordonDelete j =>
    show ((r.setCordon j false).get id).isSome = ((r'.setCordon j false).get id).isSome
    rw [isSome_get_setCordon, isSome_get_setCordon, h]

theorem isSome_get_foldl {r r' : NodeRegistry} (evs : List WatchEvent)
    (h : ∀ id, (r.get id).isSome = (r'.get id).isSome) (id : String) :
    ((evs.foldl WatchEvent.apply r).get id).isSome =
      ((evs.foldl WatchEvent.apply r').get id).isSome := by
  induction evs generalizing r r' with
  | nil => exact h id
  | cons ev evs ih => exact ih (isSome_get_apply h ev)

/-! ## The invariant of a run of the watcher -/

/-- What the registry will hold once the current run has delivered its events. -/
structure Following (s : Cluster) (pending : List WatchEvent) : Prop where
  delivered : ∀ id, ((pending.foldl WatchEvent.apply s.registry).get id).isSome =
    if id ∈ s.touched then hasNode s.etcd id else s.seen id
  untouched : ∀ id, id ∉ s.touched → hasNode s.etcd id = s.base id

def Inv (s : Cluster) : Prop :=
  match s.watcher with
  | .disconnected => True
  | .fetched snap => ∀ id, s.seen id = (s.registered id || hasNode snap id)
  | .snapshotted => ∀ id, s.seen id = s.registered id
  | .watching pending => Following s pending

/-- A node event of `id`, and of no other node. -/
def OnlyOf (id : String) (ev : WatchEvent) : Prop :=
  WatchEvent.ofNode id ev = true ∧
    ∀ j, j ≠ id → WatchEvent.ofNode j ev = false ∧ WatchEvent.ofCordon j ev = false

/-- A committed event is the last one the watch will deliver, and says what etcd now holds. -/
theorem Following.commit {s : Cluster} {pending : List WatchEvent} (h : Following s pending)
    {etcd : List NodeRecord} {id : String} {ev : WatchEvent} (hev : OnlyOf id ev)
    (hleft : (WatchEvent.left ev).isSome = hasNode etcd id)
    (hetcd : ∀ j, j ≠ id → hasNode etcd j = hasNode s.etcd j) :
    Following { s with
      etcd := etcd, watcher := .watching (pending ++ [ev]), touched := id :: s.touched }
      (pending ++ [ev]) := by
  refine ⟨?_, ?_⟩
  · intro j
    dsimp only
    rw [List.foldl_append, List.foldl_cons, List.foldl_nil]
    by_cases hj : j = id
    · rw [hj, WatchEvent.get_apply_of_node hev.1, if_pos List.mem_cons_self]
      exact hleft
    · obtain ⟨hnode, hcordon⟩ := hev.2 j hj
      rw [WatchEvent.get_apply_of_other hnode hcordon, h.delivered j, hetcd j hj]
      simp only [List.mem_cons, hj, false_or]
  · intro j hj
    rw [List.mem_cons, not_or] at hj
    dsimp only
    rw [hetcd j hj.1]
    exact h.untouched j hj.2

/-- Without a watch, what etcd holds is not part of the invariant. -/
theorem Inv.commit {s : Cluster} (h : Inv s) {etcd : List NodeRecord} {id : String}
    {ev : WatchEvent} (hev : OnlyOf id ev) (hleft : (WatchEvent.left ev).isSome = hasNode etcd id)
    (hetcd : ∀ j, j ≠ id → hasNode etcd j = hasNode s.etcd j) :
    Inv ({ s with etcd := etcd }.commit id ev) := by
  unfold Cluster.commit
  dsimp only
  cases hw : s.watcher with
  | watching pending =>
    unfold Inv at h
    rw [hw] at h
    exact Following.commit h hev hleft hetcd
  | _ =>
    unfold Inv at h ⊢
    rw [hw] at h
    exact h

theorem Inv.put {s : Cluster} (h : Inv s) (record : NodeRecord) : Inv (s.act (.put record)) := by
  refine h.commit ⟨by simp [WatchEvent.ofNode], fun j hj => ⟨?_, rfl⟩⟩ ?_ fun j hj => ?_
  · simpa [WatchEvent.ofNode] using Ne.symm hj
  · rw [hasNode_put]
    simp [WatchEvent.left]
  · rw [hasNode_put]
    simp [hj]

theorem Inv.delete {s : Cluster} (h : Inv s) (id : String) : Inv (s.act (.delete id)) := by
  unfold Cluster.act
  dsimp only
  split
  · refine h.commit ⟨by simp [WatchEvent.ofNode], fun j hj => ⟨?_, rfl⟩⟩ ?_ fun j hj => ?_
    · simpa [WatchEvent.ofNode] using Ne.symm hj
    · rw [hasNode_delete]
      simp [WatchEvent.left]
    · rw [hasNode_delete]
      simp [hj]
  · exact h

theorem Inv.deliver {s : Cluster} (h : Inv s) : Inv (s.act .deliver) := by
  unfold Cluster.act
  dsimp only
  split
  · next ev rest hw =>
    unfold Inv at h
    rw [hw] at h
    exact ⟨h.delivered, h.untouched⟩
  · exact h

theorem Inv.cordon {s : Cluster} (h : Inv s) (j : String) (flag : Bool) :
    Inv (s.act (.cordon j flag)) := by
  have hreg : ∀ id, ((s.registry.setCordon j flag).get id).isSome = (s.registry.get id).isSome :=
    fun id => isSome_get_setCordon s.registry j id flag
  unfold Cluster.act Inv at *
  dsimp only
  cases hw : s.watcher with
  | disconnected => trivial
  | fetched snap =>
    rw [hw] at h
    intro id
    rw [show s.seen id = _ from h id]
    unfold registered
    rw [hreg]
  | snapshotted =>
    rw [hw] at h
    intro id
    rw [show s.seen id = _ from h id]
    unfold registered
    rw [hreg]
  | watching pending =>
    rw [hw] at h
    refine ⟨?_, h.untouched⟩
    intro id
    dsimp only
    rw [isSome_get_foldl pending hreg]
    exact h.delivered id

theorem Inv.act {s : Cluster} (h : Inv s) (a : Action) : Inv (s.act a) := by
  cases a with
  | put record => exact h.put record
  | delete id => exact h.delete id
  | deliver => exact h.deliver
  | cordon id flag => exact h.cordon id flag
  | stop => trivial
  | get =>
    unfold Cluster.act
    dsimp only
    split
    · exact fun id => rfl
    · exact h
  | applySnapshot =>
    unfold Cluster.act
    dsimp only
    split
    · next snap hw =>
      unfold Inv at h
      rw [hw] at h
      intro id
      rw [show s.seen id = _ from h id]
      exact (isSome_get_snapshot snap s.registry id).symm
    · exact h
  | watch =>
    unfold Cluster.act
    dsimp only
    split
    · next hw =>
      unfold Inv at h
      rw [hw] at h
      refine ⟨?_, fun _ _ => rfl⟩
      intro id
      rw [if_neg List.not_mem_nil]
      exact (h id).symm
    · exact h

/-- The state after a sequence of etcd operations and watcher steps. -/
def run (acts : List Action) : Cluster :=
  acts.foldl act new

theorem run_inv (acts : List Action) : Inv (run acts) :=
  List.foldlRecOn acts act trivial fun _ h a _ => h.act a

/-- When the current run has applied its snapshot and delivered all its watch holds: registry
    and etcd have the same ids exactly if every id without an event since the watch was created
    was in etcd at that moment just in case it was registered or in etcd when the run took its
    snapshot. -/
theorem registry_converges_iff (acts : List Action) (hsettled : (run acts).watcher = .watching []) :
    (∀ id, (run acts).registered id = hasNode (run acts).etcd id) ↔
      ∀ id, id ∉ (run acts).touched → (run acts).base id = (run acts).seen id := by
  have h := run_inv acts
  unfold Inv at h
  rw [hsettled] at h
  have hreg : ∀ id, (run acts).registered id =
      if id ∈ (run acts).touched then hasNode (run acts).etcd id else (run acts).seen id :=
    h.delivered
  constructor
  · intro hall id hid
    have := hall id
    rw [hreg, if_neg hid, h.untouched id hid] at this
    exact this.symm
  · intro hbase id
    rw [hreg]
    split
    · rfl
    · next hid => rw [h.untouched id hid, hbase id hid]

/-- The record of a node that is up. -/
def up (id : String) : NodeRecord where
  nodeId := id
  role := 3
  model := some "m"
  ready := true
  draining := false
  adapters := []

/-- A first run without an event between its snapshot and its watch. -/
theorem registry_converges_first_run :
    (run [.put (up "n"), .get, .applySnapshot, .watch]).watcher = .watching [] ∧
      ∀ id, (run [.put (up "n"), .get, .applySnapshot, .watch]).registered id =
        hasNode (run [.put (up "n"), .get, .applySnapshot, .watch]).etcd id :=
  ⟨rfl, (registry_converges_iff [.put (up "n"), .get, .applySnapshot, .watch] rfl).mpr
    fun _ _ => rfl⟩

/-- A node deleted between two runs of the watcher stays in the registry. -/
theorem deleted_node_stays :
    ¬ ∀ acts : List Action, (run acts).watcher = .watching [] →
      ∀ id, (run acts).registered id = hasNode (run acts).etcd id := by
  intro h
  have hghost := h [.put (up "n"), .get, .applySnapshot, .watch, .stop, .delete "n",
    .get, .applySnapshot, .watch] rfl "n"
  exact absurd hghost (by decide)

end Cluster

end Cognitora.Router
