/-
  Cordons and heartbeats (cgn-router `src/cluster/watcher.rs`, the node and cordon watches).

  Two tasks write the same entry. A cordon event toggles one flag of an entry that is there;
  a heartbeat replaces the whole entry by the agent's record, which knows nothing of cordons.
  `cordon_holds_iff`: after a cordon PUT that no later cordon event of the node follows, the
  node stays out of `nodes_for` exactly as long as its latest node event since then is not a
  heartbeat of a node that is ready and not draining.

  The entries of the initial snapshots are applied by the same calls as PUT events, so a
  snapshot is a list of PUT events here.
-/
import Cognitora.Router.Registry
import Mathlib.Data.List.Induction

namespace Cognitora.Router

/-- An event processed by one of the watcher tasks. -/
inductive WatchEvent where
  | nodePut (record : NodeRecord)
  | nodeDelete (id : String)
  | cordonPut (id : String)
  | cordonDelete (id : String)

namespace WatchEvent

def apply (r : NodeRegistry) : WatchEvent → NodeRegistry
  | nodePut record => r.upsert record.toEntry
  | nodeDelete id => r.forget id
  | cordonPut id => r.setCordon id true
  | cordonDelete id => r.setCordon id false

/-- The registry after a list of events. -/
def process (evs : List WatchEvent) : NodeRegistry :=
  evs.foldl apply NodeRegistry.new

/-- A cordon event of node `id`. -/
def ofCordon (id : String) : WatchEvent → Bool
  | cordonPut j => j == id
  | cordonDelete j => j == id
  | _ => false

/-- A node event of node `id`. -/
def ofNode (id : String) : WatchEvent → Bool
  | nodePut record => record.nodeId == id
  | nodeDelete j => j == id
  | _ => false

/-- The latest node event of `id` in a list. -/
def latest (id : String) (evs : List WatchEvent) : Option WatchEvent :=
  (evs.filter (ofNode id)).getLast?

/-- What a node event of `id` leaves in the registry for it. -/
def left : WatchEvent → Option NodeEntry
  | nodePut record => some record.toEntry
  | _ => none

/-! ## One event -/

theorem get_apply_of_node {id : String} {ev : WatchEvent} (h : ofNode id ev = true)
    (r : NodeRegistry) : (apply r ev).get id = left ev := by
  cases ev with
  | nodePut record =>
    have hid : record.nodeId = id := by simpa [ofNode] using h
    show (r.upsert record.toEntry).get id = _
    rw [NodeRegistry.get_upsert, NodeRecord.toEntry_nodeId, if_pos hid.symm]
    rfl
  | nodeDelete j =>
    have hid : j = id := by simpa [ofNode] using h
    show (r.forget j).get id = _
    rw [NodeRegistry.get_forget, if_pos hid.symm]
    rfl
  | cordonPut j => exact absurd h (by simp [ofNode])
  | cordonDelete j => exact absurd h (by simp [ofNode])

theorem get_apply_of_other {id : String} {ev : WatchEvent} (hn : ofNode id ev = false)
    (hc : ofCordon id ev = false) (r : NodeRegistry) : (apply r ev).get id = r.get id := by
  cases ev with
  | nodePut record =>
    have hid : record.nodeId ≠ id := by simpa [ofNode] using hn
    show (r.upsert record.toEntry).get id = _
    rw [NodeRegistry.get_upsert, NodeRecord.toEntry_nodeId, if_neg hid.symm]
  | nodeDelete j =>
    have hid : j ≠ id := by simpa [ofNode] using hn
    show (r.forget j).get id = _
    rw [NodeRegistry.get_forget, if_neg hid.symm]
  | cordonPut j =>
    have hid : j ≠ id := by simpa [ofCordon] using hc
    show (r.setCordon j true).get id = _
    rw [NodeRegistry.get_setCordon, if_neg hid.symm]
  | cordonDelete j =>
    have hid : j ≠ id := by simpa [ofCordon] using hc
    show (r.setCordon j false).get id = _
    rw [NodeRegistry.get_setCordon, if_neg hid.symm]

/-! ## Lists of events -/

theorem latest_append (id : String) (evs : List WatchEvent) (ev : WatchEvent) :
    latest id (evs ++ [ev]) = if ofNode id ev then some ev else latest id evs := by
  unfold latest
  rw [List.filter_append]
  split
  · next h => rw [List.filter_cons_of_pos h, List.filter_nil, List.getLast?_concat]
  · next h => rw [List.filter_cons_of_neg h, List.filter_nil, List.append_nil]

/-- Without cordon events of `id`, its latest node event decides what is stored for it. -/
theorem get_foldl {id : String} (evs : List WatchEvent) (hc : ∀ ev ∈ evs, ofCordon id ev = false)
    (r : NodeRegistry) :
    (evs.foldl apply r).get id = (latest id evs).elim (r.get id) left := by
  induction evs using List.reverseRecOn with
  | nil => rfl
  | append_singleton evs ev ih =>
    have hrest := ih fun e he => hc e (List.mem_append_left _ he)
    rw [List.foldl_append, List.foldl_cons, List.foldl_nil, latest_append]
    by_cases hn : ofNode id ev = true
    · rw [if_pos hn, get_apply_of_node hn]
      rfl
    · have hev := hc ev (List.mem_append_right _ List.mem_cons_self)
      rw [if_neg hn, get_apply_of_other (by simpa using hn) hev, hrest]

/-- A cordon PUT hides the node, whether or not it is registered. -/
theorem cordonPut_hides (r : NodeRegistry) (id : String) (n : NodeEntry)
    (h : (apply r (cordonPut id)).get id = some n) : n.routable = false := by
  have hg : (r.setCordon id true).get id = some n := h
  rw [NodeRegistry.get_setCordon, if_pos rfl] at hg
  obtain ⟨m, _, rfl⟩ := Option.map_eq_some_iff.mp hg
  rfl

/-- A heartbeat of a node that takes traffic: it is ready and not draining. -/
def servable : WatchEvent → Bool
  | nodePut record => record.ready && !record.draining
  | _ => false

theorem routable_left (ev : WatchEvent) :
    (∃ n, left ev = some n ∧ n.routable = true) ↔ servable ev = true := by
  cases ev with
  | nodePut record =>
    have hr : record.toEntry.routable = (record.ready && !record.draining) := by
      unfold NodeEntry.routable NodeRecord.toEntry
      cases record.ready <;> cases record.draining <;> rfl
    constructor
    · rintro ⟨n, hn, hrt⟩
      rw [← Option.some.inj hn, hr] at hrt
      exact hrt
    · intro hs
      exact ⟨record.toEntry, rfl, hr.trans hs⟩
  | _ => simp [left, servable]

/-- After a cordon PUT for `id` that no cordon event of `id` follows, no request is answered
    with `id` exactly if the latest node event of `id` since that PUT, if there is one, is not
    a heartbeat of a node that is ready and not draining. -/
theorem cordon_holds_iff (id : String) (before after : List WatchEvent)
    (hlast : ∀ ev ∈ after, ofCordon id ev = false) :
    (∀ role model, ∀ n ∈ (process (before ++ cordonPut id :: after)).nodesFor role model,
      n.nodeId ≠ id) ↔
    ∀ ev, latest id after = some ev → servable ev = false := by
  have hreg : process (before ++ cordonPut id :: after) =
      after.foldl apply (apply (process before) (cordonPut id)) := by
    unfold process
    rw [List.foldl_append, List.foldl_cons]
  have hget := get_foldl after hlast (apply (process before) (cordonPut id))
  rw [← hreg] at hget
  have hmem := NodeRegistry.exists_nodesFor_iff (process (before ++ cordonPut id :: after)) id
  rw [hget] at hmem
  -- both sides negated: some request is answered with `id`
  rw [← not_iff_not]
  push Not
  rw [show (∃ role model, ∃ n ∈ (process (before ++ cordonPut id :: after)).nodesFor role model,
    n.nodeId = id) ↔ _ from hmem]
  cases hl : latest id after with
  | none =>
    simp only [Option.elim_none, reduceCtorEq, false_and, exists_false, iff_false]
    rintro ⟨n, hn, hr⟩
    rw [cordonPut_hides _ id n hn] at hr
    exact absurd hr (by simp)
  | some ev =>
    rw [Option.elim_some, routable_left]
    simp

/-- A heartbeat of a node that takes traffic. -/
def healthy (id : String) : WatchEvent :=
  nodePut { nodeId := id, role := 3, model := some "m", ready := true, draining := false,
            adapters := [] }

/-- A heartbeat of a node that finishes what it has. -/
def leaving (id : String) : WatchEvent :=
  nodePut { nodeId := id, role := 3, model := some "m", ready := true, draining := true,
            adapters := [] }

/-- Cordoned while it is registered: the node stays out when another node reports and when it
    reports that it drains. -/
theorem cordon_holds_registered :
    (∀ ev ∈ [healthy "other", leaving "n"], ofCordon "n" ev = false) ∧
      ∀ role model, ∀ n ∈ (process ([healthy "n"] ++ cordonPut "n" ::
        [healthy "other", leaving "n"])).nodesFor role model, n.nodeId ≠ "n" := by
  have hlast : ∀ ev ∈ [healthy "other", leaving "n"], ofCordon "n" ev = false := by decide
  refine ⟨hlast, (cordon_holds_iff "n" [healthy "n"] _ hlast).mpr fun ev hev => ?_⟩
  have hlatest : latest "n" [healthy "other", leaving "n"] = some (leaving "n") := rfl
  rw [hlatest] at hev
  cases hev
  rfl

/-- The heartbeat after the cordon, or the first heartbeat of a node that was cordoned before
    it registered, brings the node back. -/
theorem heartbeat_lifts_cordon :
    ¬ ∀ (id : String) (before after : List WatchEvent),
      (∀ ev ∈ after, ofCordon id ev = false) →
      ∀ role model, ∀ n ∈ (process (before ++ cordonPut id :: after)).nodesFor role model,
        n.nodeId ≠ id := by
  intro h
  have hn := h "n" [] [healthy "n"] (by decide) .unspecified none
  exact hn _ (List.mem_of_mem_head? (a := (NodeRecord.toEntry ⟨"n", 3, some "m", true, false, []⟩))
    (by rfl)) rfl

end WatchEvent

end Cognitora.Router
