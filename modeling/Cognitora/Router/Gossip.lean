/-
  The gossip watcher (cgn-router `src/cluster/gossip.rs`, `run_gossip_watcher`) with the records
  the agents publish (cgn-agent `src/health.rs`, `loop_emit_gossip`).

  Every tick reads the records of the live members, reconciles and upserts each one it can parse,
  and then forgets the registered nodes it has not seen. The prefix index is shared: between any
  two actions of the watcher other tasks insert claims, drop expired ones, and time passes.

  How a record is read is a parameter (`RecordFormat` of `Router/NodeRecord`).

  `registry_follows_agents`: whenever the watcher rests, the registry and the heartbeat tracker
  hold the last record of each agent whose record the router can read, and nothing else.
  `claim_owner_registered`: then every claim is that of a registered node, or was inserted while
  its node was not registered. `claims_dropped_for_reason`: a claim is only dropped because it
  expired, for a reason its own node's heartbeat gives, or when no record names its node.

  `records` and `late` of `Watcher` are history variables: no step reads them. Not modelled: how
  chitchat spreads the records and detects dead members; a tick may see any list of records.
-/
import Cognitora.Lib.Run
import Cognitora.Router.NodeRecord

namespace Cognitora.Router.Gossip

open Cognitora.Core

/-- What is left to do in a tick. -/
inductive Action where
  | read (json : String)
  | reconcile (entry : NodeDoc)
  | upsert (entry : NodeDoc)
  /-- `nodes.snapshot()`, filtered by the ids of the live records. -/
  | sweep
  | forget (id : String)
  | forgetState (id : String)
  | forgetClaims (id : String)

/-- What only the watcher writes. -/
structure View where
  nodes : NodeRegistry
  cacheState : CacheStateTracker
  live : List String

structure Watcher where
  view : View
  world : PrefixIndex.World
  todo : List Action
  /-- The records of the last tick. -/
  records : List String
  /-- Nodes for which a claim was inserted since they were last registered. -/
  late : List String

/-- A step of the watcher, the start of a tick, or a step of another task. -/
inductive Step where
  | act
  | tick (records : List (String × String))
  | pass (d : Nat)
  | insert (digest : Digest) (nodeId : String)
  | gc

def View.new : View := ⟨NodeRegistry.new, ∅, []⟩

def Watcher.new (ttl : Nat) : Watcher :=
  ⟨View.new, ⟨0, PrefixIndex.new ttl, []⟩, [], [], []⟩

section

variable (fromStr : String → Option NodeDoc)

/-- The three calls that drop a node. -/
def drop (id : String) : List Action :=
  [.forget id, .forgetState id, .forgetClaims id]

/-- Registered nodes that no record of the tick names. -/
def View.gone (v : View) : List String :=
  v.nodes.ids.filter fun id => id ∉ v.live

/-- What an action does to the watcher's own state, and the actions it leads to. -/
def View.act (v : View) : Action → View × List Action
  | .read json =>
    match fromStr json with
    | some entry =>
      ({ v with live := entry.nodeId :: v.live }, [.reconcile entry, .upsert entry])
    | none => (v, [])
  | .reconcile entry => ({ v with cacheState := v.cacheState.record entry.toHeartbeat }, [])
  | .upsert entry => ({ v with nodes := v.nodes.upsert entry.toEntry }, [])
  | .sweep => (v, v.gone.flatMap drop)
  | .forget id => ({ v with nodes := v.nodes.forget id }, [])
  | .forgetState id => ({ v with cacheState := v.cacheState.forgetNode id }, [])
  | .forgetClaims _ => (v, [])

/-- The operations of an action on the index. -/
def Action.ops (v : View) (ttl : Nat) : Action → List PrefixIndex.Op
  | .reconcile entry => v.cacheState.prune ttl entry.toHeartbeat
  | .forgetClaims id => [.forgetNode id]
  | _ => []

def Action.registers : Action → Option String
  | .upsert entry => some entry.nodeId
  | _ => none

namespace Watcher

def step (s : Watcher) : Step → Watcher
  | .act =>
    match s.todo with
    | [] => s
    | a :: rest =>
      let (view, more) := s.view.act fromStr a
      { s with
        view := view
        world := (a.ops s.view s.world.index.ttl).foldl PrefixIndex.World.step s.world
        todo := more ++ rest
        late := s.late.filter fun n => a.registers ≠ some n }
  | .tick records =>
    match s.todo with
    | [] =>
      { s with
        view := { s.view with live := [] }
        todo := (records.map Prod.snd).map .read ++ [.sweep]
        records := records.map Prod.snd }
    | _ => s
  | .pass d => { s with world := s.world.step (.pass d) }
  | .insert digest nodeId =>
    { s with
      world := s.world.step (.insert digest nodeId)
      late := if (s.view.nodes.get nodeId).isSome then s.late else nodeId :: s.late }
  | .gc => { s with world := s.world.step .gc }

end Watcher

/-! ## A tick as a whole -/

/-- An action with all it leads to. -/
def View.perform (v : View) : Action → View
  | .read json =>
    match fromStr json with
    | some entry =>
      { nodes := v.nodes.upsert entry.toEntry
        cacheState := v.cacheState.record entry.toHeartbeat
        live := entry.nodeId :: v.live }
    | none => v
  | .sweep =>
    { v with
      nodes := v.gone.foldl NodeRegistry.forget v.nodes
      cacheState := v.gone.foldl CacheStateTracker.forgetNode v.cacheState }
  | a => (v.act fromStr a).1

/-- The watcher's state once it has nothing left to do. -/
def Watcher.settled (s : Watcher) : View :=
  s.todo.foldl (View.perform fromStr) s.view

theorem View.act_read_none {v : View} {json : String}
    (h : fromStr json = none) : v.act fromStr (.read json) = (v, []) := by
  simp only [View.act, h]

theorem View.act_read_some {v : View} {json : String} {entry : NodeDoc}
    (h : fromStr json = some entry) :
    v.act fromStr (.read json) =
      ({ v with live := entry.nodeId :: v.live }, [.reconcile entry, .upsert entry]) := by
  simp only [View.act, h]

theorem foldl_perform_drop (ids : List String) (v : View) :
    (ids.flatMap drop).foldl (View.perform fromStr) v =
      { v with
        nodes := ids.foldl NodeRegistry.forget v.nodes
        cacheState := ids.foldl CacheStateTracker.forgetNode v.cacheState } := by
  induction ids generalizing v with
  | nil => rfl
  | cons id ids ih =>
    rw [List.flatMap_cons, List.foldl_append, ih]
    rfl

/-- Doing an action and then what it leads to is doing it as a whole. -/
theorem foldl_perform_act (v : View) (a : Action) :
    (v.act fromStr a).2.foldl (View.perform fromStr) (v.act fromStr a).1 = v.perform fromStr a := by
  cases a with
  | read json =>
    cases hread : fromStr json with
    | none =>
      rw [View.act_read_none fromStr hread]
      simp only [View.perform, hread]
      rfl
    | some entry =>
      rw [View.act_read_some fromStr hread]
      simp only [View.perform, hread]
      rfl
  | sweep => exact foldl_perform_drop fromStr v.gone v
  | _ => rfl

/-- The state at the end of the tick is fixed when the tick begins. -/
theorem settled_act (s : Watcher) : (s.step fromStr .act).settled fromStr = s.settled fromStr := by
  unfold Watcher.step Watcher.settled
  cases htodo : s.todo with
  | nil =>
    dsimp only
    rw [htodo]
  | cons a rest =>
    dsimp only
    rw [List.foldl_append, foldl_perform_act, List.foldl_cons]

/-! ## What a tick leaves -/

/-- The last record of a node among those that can be read. -/
def lastRecord (records : List String) (id : String) : Option NodeDoc :=
  (records.filterMap fromStr).reverse.find? fun entry => entry.nodeId = id

theorem lastRecord_cons (json : String) (records : List String) (id : String) :
    lastRecord fromStr (json :: records) id =
      (lastRecord fromStr records id).or
        ((fromStr json).filter fun entry => entry.nodeId = id) := by
  unfold lastRecord
  cases hread : fromStr json with
  | none => rw [List.filterMap_cons_none hread, Option.filter_none, Option.or_none]
  | some entry =>
    rw [List.filterMap_cons_some hread, List.reverse_cons, List.find?_append]
    congr 1
    by_cases hid : entry.nodeId = id <;> simp [hid, Option.filter]

/-- What reading the records does. -/
structure View.Reads (v v' : View) (records : List String) : Prop where
  nodes : ∀ id, v'.nodes.get id =
    ((lastRecord fromStr records id).map NodeDoc.toEntry).or (v.nodes.get id)
  cacheState : ∀ id, v'.cacheState.lookup id =
    ((lastRecord fromStr records id).map NodeDoc.snapshot).or (v.cacheState.lookup id)
  live : ∀ id, id ∈ v'.live ↔ (lastRecord fromStr records id).isSome ∨ id ∈ v.live

theorem reads_perform (v : View) (json : String) :
    v.Reads fromStr (v.perform fromStr (.read json)) [json] := by
  cases hread : fromStr json with
  | none =>
    have hlast : ∀ id, lastRecord fromStr [json] id = none := by
      intro id
      rw [lastRecord_cons, hread]
      rfl
    simp only [View.perform, hread]
    refine ⟨fun id => ?_, fun id => ?_, fun id => ?_⟩ <;> simp [hlast]
  | some entry =>
    have hlast : ∀ id, lastRecord fromStr [json] id =
        if entry.nodeId = id then some entry else none := by
      intro id
      rw [lastRecord_cons, hread]
      by_cases hid : entry.nodeId = id <;> simp [lastRecord, hid, Option.filter]
    simp only [View.perform, hread]
    refine ⟨fun id => ?_, fun id => ?_, fun id => ?_⟩
    · rw [NodeRegistry.get_upsert, hlast]
      show (if id = entry.nodeId then _ else _) = _
      by_cases hid : id = entry.nodeId
      · rw [if_pos hid, if_pos hid.symm]
        rfl
      · rw [if_neg hid, if_neg (Ne.symm hid)]
        rfl
    · rw [hlast]
      show AList.lookup id (v.cacheState.insert entry.nodeId _) = _
      by_cases hid : id = entry.nodeId
      · rw [if_pos hid.symm, hid, AList.lookup_insert]
        rfl
      · rw [if_neg (Ne.symm hid), AList.lookup_insert_ne hid]
        rfl
    · rw [hlast, List.mem_cons]
      by_cases hid : id = entry.nodeId
      · simp [hid]
      · simp [hid, Ne.symm hid]

theorem View.Reads.cons {v v₁ v₂ : View} {json : String} {records : List String}
    (h₁ : v.Reads fromStr v₁ [json]) (h₂ : v₁.Reads fromStr v₂ records) :
    v.Reads fromStr v₂ (json :: records) := by
  have hlast : ∀ id, lastRecord fromStr (json :: records) id =
      (lastRecord fromStr records id).or (lastRecord fromStr [json] id) := by
    intro id
    rw [lastRecord_cons, lastRecord_cons fromStr json []]
    rfl
  refine ⟨fun id => ?_, fun id => ?_, fun id => ?_⟩
  · rw [h₂.nodes, h₁.nodes, hlast, Option.map_or, Option.or_assoc]
  · rw [h₂.cacheState, h₁.cacheState, hlast, Option.map_or, Option.or_assoc]
  · rw [h₂.live, h₁.live, hlast, Option.isSome_or, Bool.or_eq_true, or_assoc]

theorem reads_foldl (records : List String) (v : View) :
    v.Reads fromStr ((records.map Action.read).foldl (View.perform fromStr) v) records := by
  induction records generalizing v with
  | nil => exact ⟨fun _ => rfl, fun _ => rfl, fun id => by simp [lastRecord]⟩
  | cons json records ih => exact (reads_perform fromStr v json).cons fromStr (ih _)

theorem get_foldl_forget (ids : List String) (r : NodeRegistry) (id : String) :
    (ids.foldl NodeRegistry.forget r).get id = if id ∈ ids then none else r.get id := by
  induction ids generalizing r with
  | nil => rfl
  | cons j ids ih =>
    rw [List.foldl_cons, ih, NodeRegistry.get_forget]
    by_cases hj : id = j <;> by_cases hids : id ∈ ids <;> simp [hj, hids]

theorem lookup_foldl_forgetNode (ids : List String) (t : CacheStateTracker) (id : String) :
    (ids.foldl CacheStateTracker.forgetNode t).lookup id =
      if id ∈ ids then none else t.lookup id := by
  induction ids generalizing t with
  | nil => rfl
  | cons j ids ih =>
    rw [List.foldl_cons, ih, CacheStateTracker.forgetNode]
    by_cases hj : id = j
    · subst hj
      simp
    · rw [AList.lookup_erase_ne hj]
      simp [hj]

theorem View.mem_gone {v : View} {id : String} :
    id ∈ v.gone ↔ (v.nodes.get id).isSome ∧ id ∉ v.live := by
  unfold gone
  rw [List.mem_filter, NodeRegistry.mem_ids, decide_eq_true_eq, Option.isSome_iff_exists]

/-- Registry and tracker know the same nodes. -/
def View.Agrees (v : View) : Prop :=
  ∀ id, (v.cacheState.lookup id).isSome → (v.nodes.get id).isSome

/-- Registry and tracker hold the last record of each node. -/
structure View.Holds (v : View) (records : List String) : Prop where
  nodes : ∀ id, v.nodes.get id = (lastRecord fromStr records id).map NodeDoc.toEntry
  cacheState : ∀ id, v.cacheState.lookup id = (lastRecord fromStr records id).map NodeDoc.snapshot

theorem View.Holds.agrees {v : View} {records : List String} (h : v.Holds fromStr records) :
    v.Agrees := by
  intro id hid
  rw [h.cacheState, Option.isSome_map] at hid
  rwa [h.nodes, Option.isSome_map]

/-- The removal pass of a tick, after its records were read. -/
theorem View.Reads.sweep {v v' : View} {records : List String} (hv : v.Agrees)
    (hlive : v.live = []) (h : v.Reads fromStr v' records) :
    (v'.perform fromStr .sweep).Holds fromStr records := by
  have hgone : ∀ id, id ∈ v'.gone ↔
      (v.nodes.get id).isSome ∧ lastRecord fromStr records id = none := by
    intro id
    rw [View.mem_gone, h.nodes, h.live, hlive]
    cases lastRecord fromStr records id <;> simp
  refine ⟨fun id => ?_, fun id => ?_⟩
  · show (v'.gone.foldl NodeRegistry.forget v'.nodes).get id = _
    rw [get_foldl_forget, h.nodes]
    simp only [hgone]
    cases lastRecord fromStr records id with
    | some entry => simp
    | none => cases v.nodes.get id <;> simp
  · show (v'.gone.foldl CacheStateTracker.forgetNode v'.cacheState).lookup id = _
    rw [lookup_foldl_forgetNode, h.cacheState]
    simp only [hgone]
    cases lastRecord fromStr records id with
    | some entry => simp
    | none =>
      have hagree := hv id
      cases hget : v.nodes.get id with
      | some n => simp
      | none =>
        rw [hget] at hagree
        have hnone : v.cacheState.lookup id = none := by simpa using hagree
        simp [hnone]

/-- Whatever the watcher knew before, a tick leaves it with the records of the tick. -/
theorem holds_tick {v : View} (hv : v.Agrees) (hlive : v.live = []) (records : List String) :
    ((records.map Action.read ++ [Action.sweep]).foldl (View.perform fromStr) v).Holds fromStr
      records := by
  rw [List.foldl_append]
  exact (reads_foldl fromStr records v).sweep fromStr hv hlive

/-! ## What is left to do -/

/-- The removal pass is the last action, and dropping a node includes dropping its claims. -/
def WellFormed : List Action → Prop
  | [] => True
  | a :: rest =>
    (a = .sweep → rest = []) ∧ (∀ n, a = .forget n → .forgetClaims n ∈ rest) ∧ WellFormed rest

omit fromStr in
theorem wellFormed_drop (ids : List String) : WellFormed (ids.flatMap drop) := by
  induction ids with
  | nil => trivial
  | cons id ids ih =>
    refine ⟨nofun, fun n hn => ?_, nofun, nofun, nofun, nofun, ih⟩
    cases hn
    exact List.mem_cons_of_mem _ List.mem_cons_self

theorem wellFormed_act {v : View} {a : Action} {rest : List Action}
    (h : WellFormed (a :: rest)) : WellFormed ((v.act fromStr a).2 ++ rest) := by
  cases a with
  | read json =>
    cases hread : fromStr json with
    | none =>
      rw [View.act_read_none fromStr hread]
      exact h.2.2
    | some entry =>
      rw [View.act_read_some fromStr hread]
      exact ⟨nofun, nofun, nofun, nofun, h.2.2⟩
  | sweep =>
    rw [h.1 rfl, List.append_nil]
    exact wellFormed_drop v.gone
  | _ => exact h.2.2

omit fromStr in
theorem wellFormed_tick (records : List String) :
    WellFormed (records.map Action.read ++ [Action.sweep]) := by
  induction records with
  | nil => exact ⟨fun _ => rfl, nofun, trivial⟩
  | cons json records ih => exact ⟨nofun, nofun, ih⟩

omit fromStr in
theorem mem_drop {ids : List String} {n : String} :
    .forgetClaims n ∈ ids.flatMap drop ↔ n ∈ ids := by
  simp [drop]

/-- An action only leads to dropping the claims of nodes the removal pass found gone. -/
theorem forgetClaims_mem_act {v : View} {a : Action} {n : String}
    (h : .forgetClaims n ∈ (v.act fromStr a).2) : a = .sweep ∧ n ∈ v.gone := by
  cases a with
  | read json =>
    cases hread : fromStr json with
    | none =>
      rw [View.act_read_none fromStr hread] at h
      exact absurd h List.not_mem_nil
    | some entry =>
      rw [View.act_read_some fromStr hread] at h
      simp at h
  | sweep => exact ⟨rfl, mem_drop.mp h⟩
  | _ => exact absurd h List.not_mem_nil

/-! ## Invariants of a run -/

structure Watcher.Inv (s : Watcher) : Prop where
  holds : (s.settled fromStr).Holds fromStr s.records
  wellFormed : WellFormed s.todo
  /-- Claims are only dropped of nodes that the tick leaves out of the registry. -/
  pending : ∀ n, .forgetClaims n ∈ s.todo → (s.settled fromStr).nodes.get n = none
  claims : ∀ d n, s.world.index.HasClaim d n →
    (s.view.nodes.get n).isSome ∨ n ∈ s.late ∨ .forgetClaims n ∈ s.todo

/-- What an action does to the claims: it only drops some. -/
theorem hasClaim_of_ops {v : View} {ttl : Nat} {a : Action} {w : PrefixIndex.World} {d : Digest}
    {n : String}
    (h : ((a.ops v ttl).foldl PrefixIndex.World.step w).index.HasClaim d n) :
    w.index.HasClaim d n ∧ a ≠ .forgetClaims n := by
  refine ⟨PrefixIndex.hasClaim_of_foldl (fun op hop => ?_) h, ?_⟩
  · cases a with
    | reconcile entry =>
      obtain rfl | ⟨olderThan, rfl⟩ := CacheStateTracker.forgets_of_mem_prune hop
      · nofun
      · nofun
    | forgetClaims id =>
      rw [List.mem_singleton.mp hop]
      nofun
    | _ => exact absurd hop List.not_mem_nil
  · rintro rfl
    exact PrefixIndex.not_hasClaim_forgetNode w d n h

/-- A node that an action takes out of the registry is one it was told to forget. -/
theorem registered_act {v : View} {a : Action} {n : String} (h : (v.nodes.get n).isSome)
    (ha : a ≠ .forget n) : ((v.act fromStr a).1.nodes.get n).isSome := by
  cases a with
  | read json =>
    cases hread : fromStr json with
    | none => rwa [View.act_read_none fromStr hread]
    | some entry => rwa [View.act_read_some fromStr hread]
  | upsert entry =>
    show ((v.nodes.upsert entry.toEntry).get n).isSome
    rw [NodeRegistry.get_upsert]
    split
    · rfl
    · exact h
  | forget id =>
    show ((v.nodes.forget id).get n).isSome
    rw [NodeRegistry.get_forget]
    split
    · next hid => exact absurd (congrArg Action.forget hid.symm) ha
    · exact h
  | _ => exact h

theorem registered_of_registers {v : View} {a : Action} {n : String}
    (h : a.registers = some n) : ((v.act fromStr a).1.nodes.get n).isSome := by
  cases a with
  | upsert entry =>
    show ((v.nodes.upsert entry.toEntry).get n).isSome
    have hid : n = entry.toEntry.nodeId := (Option.some.inj h).symm
    rw [NodeRegistry.get_upsert, if_pos hid]
    rfl
  | _ => exact nomatch h

namespace Watcher

theorem inv_act {s : Watcher} (h : s.Inv fromStr) : (s.step fromStr .act).Inv fromStr := by
  have hsettled := settled_act fromStr s
  obtain ⟨holds, wellFormed, pending, claims⟩ := h
  obtain ⟨view, world, todo, records, late⟩ := s
  cases todo with
  | nil => exact ⟨holds, wellFormed, pending, claims⟩
  | cons a rest =>
    refine ⟨hsettled ▸ holds, wellFormed_act fromStr wellFormed, fun n hn => ?_, fun d n hn => ?_⟩
    · rw [hsettled]
      obtain hmore | hrest := List.mem_append.mp hn
      · obtain ⟨rfl, hgone⟩ := forgetClaims_mem_act fromStr hmore
        obtain rfl := wellFormed.1 rfl
        show (view.gone.foldl NodeRegistry.forget view.nodes).get n = none
        rw [get_foldl_forget, if_pos hgone]
      · exact pending n (List.mem_cons_of_mem _ hrest)
    · obtain ⟨hold, hne⟩ := hasClaim_of_ops hn
      show ((view.act fromStr a).1.nodes.get n).isSome ∨ _
      obtain hreg | hlate | htodo := claims d n hold
      · by_cases ha : a = .forget n
        · exact .inr (.inr (List.mem_append_right _ (wellFormed.2.1 n ha)))
        · exact .inl (registered_act fromStr hreg ha)
      · by_cases ha : a.registers = some n
        · exact .inl (registered_of_registers fromStr ha)
        · exact .inr (.inl (List.mem_filter.mpr ⟨hlate, decide_eq_true ha⟩))
      · obtain rfl | hrest := List.mem_cons.mp htodo
        · exact absurd rfl hne
        · exact .inr (.inr (List.mem_append_right _ hrest))

theorem inv_tick {s : Watcher} (h : s.Inv fromStr) (records : List (String × String)) :
    (s.step fromStr (.tick records)).Inv fromStr := by
  obtain ⟨holds, wellFormed, pending, claims⟩ := h
  obtain ⟨view, world, todo, old, late⟩ := s
  cases todo with
  | cons a rest => exact ⟨holds, wellFormed, pending, claims⟩
  | nil =>
    have hagrees : View.Agrees { view with live := [] } := holds.agrees fromStr
    refine ⟨holds_tick fromStr hagrees rfl _, wellFormed_tick _, fun n hn => ?_, fun d n hn => ?_⟩
    · obtain hread | hsweep := List.mem_append.mp hn
      · obtain ⟨json, _, hjson⟩ := List.mem_map.mp hread
        exact nomatch hjson
      · exact nomatch List.mem_singleton.mp hsweep
    · exact (claims d n hn).imp id (Or.imp id fun hmem => absurd hmem List.not_mem_nil)

/-- A step of another task. -/
theorem inv_other {s : Watcher} (h : s.Inv fromStr) {w : PrefixIndex.World} {late : List String}
    (hlate : s.late ⊆ late)
    (hw : ∀ d n, w.index.HasClaim d n →
      s.world.index.HasClaim d n ∨ (s.view.nodes.get n).isSome ∨ n ∈ late) :
    ({ s with world := w, late := late } : Watcher).Inv fromStr := by
  refine ⟨h.holds, h.wellFormed, h.pending, fun d n hn => ?_⟩
  obtain hold | hreg | hmem := hw d n hn
  · exact (h.claims d n hold).imp id (Or.imp (fun hm => hlate hm) id)
  · exact .inl hreg
  · exact .inr (.inl hmem)

theorem inv_step {s : Watcher} (h : s.Inv fromStr) (a : Step) : (s.step fromStr a).Inv fromStr := by
  cases a with
  | act => exact inv_act fromStr h
  | tick records => exact inv_tick fromStr h records
  | pass d => exact inv_other fromStr h (List.Subset.refl _) fun _ _ hn => .inl hn
  | insert digest nodeId =>
    refine inv_other fromStr h ?_ fun d n hn => ?_
    · split
      · exact List.Subset.refl _
      · exact List.subset_cons_self _ _
    · obtain hold | heq := PrefixIndex.hasClaim_of_step hn
      · exact .inl hold
      · cases heq
        split
        · next hreg => exact .inr (.inl hreg)
        · exact .inr (.inr List.mem_cons_self)
  | gc =>
    refine inv_other fromStr h (List.Subset.refl _) fun d n hn => ?_
    exact .inl ((PrefixIndex.hasClaim_of_step hn).resolve_right nofun)

theorem inv_new (ttl : Nat) : (Watcher.new ttl).Inv fromStr := by
  refine ⟨⟨fun _ => rfl, fun _ => rfl⟩, trivial, nofun, ?_⟩
  rintro d n ⟨e, he, _⟩
  exact absurd he (List.not_mem_nil)

/-- The state after a run. -/
def run (ttl : Nat) (steps : List Step) : Watcher :=
  steps.foldl (Watcher.step fromStr) (Watcher.new ttl)

theorem inv_run (ttl : Nat) (steps : List Step) : (run fromStr ttl steps).Inv fromStr :=
  List.foldlRecOn steps _ (inv_new fromStr ttl) fun _ h a _ => inv_step fromStr h a

/-! ## A tick ends -/

/-- The actions that may lead to others. -/
def expands : Action → Bool
  | .read _ => true
  | .sweep => true
  | _ => false

/-- The actions that still lead to others, and then all actions. -/
def rank (s : Watcher) : ℕ ×ₗ ℕ :=
  toLex (s.todo.countP expands, s.todo.length)

theorem countP_expands_act (v : View) (a : Action) :
    (v.act fromStr a).2.countP expands = 0 ∧ (expands a = false → (v.act fromStr a).2 = []) := by
  cases a with
  | read json =>
    cases hread : fromStr json with
    | none =>
      rw [View.act_read_none fromStr hread]
      exact ⟨rfl, fun _ => rfl⟩
    | some entry =>
      rw [View.act_read_some fromStr hread]
      exact ⟨rfl, nofun⟩
  | sweep =>
    refine ⟨List.countP_eq_zero.mpr fun a ha => ?_, nofun⟩
    obtain ⟨id, _, ha⟩ := List.mem_flatMap.mp ha
    simp only [drop, List.mem_cons, List.not_mem_nil, or_false] at ha
    obtain rfl | rfl | rfl := ha <;> exact Bool.false_ne_true
  | _ => exact ⟨rfl, fun _ => rfl⟩

theorem rank_act_lt {s : Watcher} (h : s.todo ≠ []) : (s.step fromStr .act).rank < s.rank := by
  obtain ⟨view, world, todo, records, late⟩ := s
  cases todo with
  | nil => exact absurd rfl h
  | cons a rest =>
    obtain ⟨hcount, hmore⟩ := countP_expands_act fromStr view a
    unfold rank step
    dsimp only
    rw [Prod.Lex.toLex_lt_toLex, List.countP_append, hcount, List.countP_cons]
    cases ha : expands a with
    | true =>
      refine .inl ?_
      rw [if_pos rfl]
      omega
    | false =>
      refine .inr ⟨?_, ?_⟩
      · rw [if_neg Bool.false_ne_true]
        omega
      · rw [hmore ha]
        simp

theorem foldl_replicate_act (s : Watcher) (k : Nat) :
    (List.replicate k Step.act).foldl (step fromStr) s = (fun s => step fromStr s .act)^[k] s := by
  induction k generalizing s with
  | zero => rfl
  | succ k ih => rw [List.replicate_succ, List.foldl_cons, ih, Function.iterate_succ_apply]

theorem records_foldl_act (s : Watcher) (k : Nat) :
    ((List.replicate k Step.act).foldl (step fromStr) s).records = s.records := by
  induction k generalizing s with
  | zero => rfl
  | succ k ih =>
    rw [List.replicate_succ, List.foldl_cons, ih]
    obtain ⟨view, world, todo, records, late⟩ := s
    cases todo <;> rfl

/-- From any state the watcher comes to rest by its own actions. -/
theorem comes_to_rest (s : Watcher) :
    ∃ k, ((List.replicate k Step.act).foldl (step fromStr) s).todo = [] := by
  have hstep : ∀ s : Watcher, True → ¬ s.todo = [] →
      True ∧ rank (step fromStr s .act) < rank s :=
    fun _ _ h => ⟨trivial, rank_act_lt fromStr h⟩
  obtain ⟨k, hk⟩ := Lib.iterate_reaches rank hstep s trivial
  exact ⟨k, by rwa [foldl_replicate_act]⟩

/-- A tick that begins at rest comes to its end. -/
theorem tick_ends (ttl : Nat) (steps : List Step) (hrest : (run fromStr ttl steps).todo = [])
    (records : List (String × String)) :
    ∃ k, (run fromStr ttl (steps ++ .tick records :: List.replicate k .act)).todo = [] ∧
      (run fromStr ttl (steps ++ .tick records :: List.replicate k .act)).records =
        records.map Prod.snd := by
  obtain ⟨k, hk⟩ := comes_to_rest fromStr ((run fromStr ttl steps).step fromStr (.tick records))
  have hrun : run fromStr ttl (steps ++ .tick records :: List.replicate k .act) =
      (List.replicate k Step.act).foldl (step fromStr)
        ((run fromStr ttl steps).step fromStr (.tick records)) := by
    rw [run, List.foldl_append, List.foldl_cons]
    rfl
  refine ⟨k, hrun ▸ hk, ?_⟩
  rw [hrun, records_foldl_act, step, hrest]

end Watcher

end

/-! ## The registry and the agents -/

section

variable (fmt : RecordFormat)

/-- The last status an agent of this id published, among those the router can read. -/
def lastStatus (statuses : List NodeStatus) (id : String) : Option NodeStatus :=
  (statuses.filter fun s => (fmt.fromStr (fmt.toString s)).isSome).reverse.find?
    fun s => s.nodeId = id

variable {fmt} {ttl : Nat} {steps : List Step} {statuses : List NodeStatus}

theorem lastRecord_statuses (hfmt : ∀ s ∈ statuses, fmt.Faithful s) (id : String) :
    lastRecord fmt.fromStr (statuses.map fmt.toString) id =
      (lastStatus fmt statuses id).map NodeStatus.doc := by
  have hread : (statuses.map fmt.toString).filterMap fmt.fromStr =
      (statuses.filter fun s => (fmt.fromStr (fmt.toString s)).isSome).map NodeStatus.doc := by
    induction statuses with
    | nil => rfl
    | cons s statuses ih =>
      obtain ⟨hs, hrest⟩ := List.forall_mem_cons.mp hfmt
      rw [List.map_cons, List.filterMap_cons, ih hrest, List.filter_cons]
      cases hread : fmt.fromStr (fmt.toString s) with
      | none => simp
      | some n => simp [hs n hread]
  rw [lastRecord, hread, ← List.map_reverse, List.find?_map, lastStatus]
  rfl

theorem holds_at_rest (hrest : (Watcher.run fmt.fromStr ttl steps).todo = [])
    (hrecords : (Watcher.run fmt.fromStr ttl steps).records = statuses.map fmt.toString) :
    (Watcher.run fmt.fromStr ttl steps).view.Holds fmt.fromStr (statuses.map fmt.toString) := by
  have hholds := (Watcher.inv_run fmt.fromStr ttl steps).holds
  rwa [Watcher.settled, hrest, List.foldl_nil, hrecords] at hholds

end

/-- Whenever the watcher rests, registry and tracker hold what the agents of the last tick
published: for each id the last record that can be read, and nothing else. -/
theorem registry_follows_agents (fmt : RecordFormat) (ttl : Nat) (steps : List Step)
    (statuses : List NodeStatus) (hfmt : ∀ s ∈ statuses, fmt.Faithful s)
    (hrest : (Watcher.run fmt.fromStr ttl steps).todo = [])
    (hrecords : (Watcher.run fmt.fromStr ttl steps).records = statuses.map fmt.toString)
    (id : String) :
    (Watcher.run fmt.fromStr ttl steps).view.nodes.get id =
        (lastStatus fmt statuses id).map (fun s => s.doc.toEntry) ∧
      (Watcher.run fmt.fromStr ttl steps).view.cacheState.lookup id =
        (lastStatus fmt statuses id).map (fun s => s.doc.snapshot) := by
  obtain ⟨hnodes, hstate⟩ := holds_at_rest hrest hrecords
  rw [hnodes, hstate, lastRecord_statuses hfmt, Option.map_map, Option.map_map]
  exact ⟨rfl, rfl⟩

/-- An agent whose power limit is not finite. -/
def unlimited : NodeStatus where
  nodeId := "b"
  listen := "10.0.0.2:7070"
  requireMtls := false
  role := .both
  gpuIndex := none
  models := [("m", ["x"])]
  stats := { queueDepth := 1, freeBlocks := 2, totalBlocks := 3 }
  powerWatts := 42
  wattLimit := 1 / 0
  gpuName := ""
  gpuVendor := ""
  vramTotalMb := 0
  kvEpoch := 0
  ready := true
  draining := false

/-- One whose limit is 300 W. -/
def limited : NodeStatus :=
  { unlimited with nodeId := "a", wattLimit := 300 }

/-- The record of either, given its id and what is printed for the limit. -/
def recordText (id wattLimit : String) : String :=
  "\x7b\"adapters\":[\"x\"],\"address\":\"http://10.0.0.2:7070\",\"draining\":false," ++
    "\"free_blocks\":2,\"gpu_index\":null,\"gpu_name\":\"\",\"gpu_vendor\":\"\"," ++
    "\"kv_epoch\":0,\"model\":\"m\",\"node_id\":\"" ++ id ++ "\",\"power_watts\":42.0," ++
    "\"queue_depth\":1,\"ready\":true,\"role\":3,\"servable\":true,\"total_blocks\":3," ++
    "\"version\":\"0.1.0\",\"vram_total_mb\":0,\"watt_limit\":" ++ wattLimit ++ "\x7d"

/-- serde_json at the records of the two. -/
def twoRecords : RecordFormat where
  toString s := recordText s.nodeId (if s.nodeId = "a" then "300.0" else "null")
  fromStr text := if text = recordText "a" "300.0" then some limited.doc else none

theorem fromStr_limited :
    twoRecords.fromStr (twoRecords.toString limited) = some limited.doc := by
  simp [twoRecords, limited]

theorem fromStr_unlimited : twoRecords.fromStr (twoRecords.toString unlimited) = none := by
  have hne : recordText "b" "null" ≠ recordText "a" "300.0" := by decide +kernel
  simp [twoRecords, unlimited, hne]

theorem twoRecords_faithful : ∀ s ∈ [limited, unlimited], twoRecords.Faithful s := by
  intro s hs n hn
  rcases List.mem_cons.mp hs with rfl | hs
  · rw [fromStr_limited] at hn
    exact (Option.some.inj hn).symm
  · rw [List.mem_singleton.mp hs, fromStr_unlimited] at hn
    cases hn

theorem lastStatus_limited : lastStatus twoRecords [limited, unlimited] "a" = some limited := by
  simp only [lastStatus, List.filter_cons, fromStr_limited, fromStr_unlimited]
  rfl

theorem lastStatus_unlimited : lastStatus twoRecords [limited, unlimited] "b" = none := by
  simp only [lastStatus, List.filter_cons, fromStr_limited, fromStr_unlimited]
  rfl

/-- A tick over the records of both, and `k` actions. -/
def tickOfTwo (k : Nat) : List Step :=
  .tick ([limited, unlimited].map fun s => (s.nodeId, twoRecords.toString s)) ::
    List.replicate k .act

/-- The state after it. -/
def afterTick (k : Nat) : Watcher :=
  Watcher.run twoRecords.fromStr 60 (tickOfTwo k)

theorem afterTick_rests : ∃ k, (afterTick k).todo = [] ∧
    (afterTick k).records = [limited, unlimited].map twoRecords.toString :=
  Watcher.tick_ends twoRecords.fromStr 60 [] rfl _

theorem registry_after_tick :
    (∀ s ∈ [limited, unlimited], twoRecords.Faithful s) ∧
      ∃ k, (afterTick k).todo = [] ∧
        (afterTick k).view.nodes.get "a" = some limited.doc.toEntry ∧
        (afterTick k).view.nodes.get "b" = none := by
  obtain ⟨k, hrest, hrecords⟩ := afterTick_rests
  have hget := registry_follows_agents twoRecords 60 _ _ twoRecords_faithful hrest hrecords
  refine ⟨twoRecords_faithful, k, hrest, (hget "a").1.trans ?_, (hget "b").1.trans ?_⟩
  · rw [lastStatus_limited]
    rfl
  · rw [lastStatus_unlimited]
    rfl

/-- The checks of `nodes_for`, in terms of what the agent knows of itself. -/
theorem candidate_iff (s : NodeStatus) (role : NodeRole) (model : Option String) :
    s.doc.toEntry.routable = true ∧ s.doc.toEntry.matchesRequest role model = true ↔
      (s.ready = true ∧ s.draining = false) ∧
        (role = .unspecified ∨ NodeRole.ofInt (roleToInt s.role) = role ∨ s.role = .both) ∧
        ∀ m ∈ model, s.model = some m ∨ m ∈ s.adapters := by
  have hboth : NodeRole.ofInt (roleToInt s.role) = .both ↔ s.role = .both := by
    cases s.role <;> decide
  have hmodel : model.all s.doc.toEntry.serves = true ↔
      ∀ m ∈ model, s.model = some m ∨ m ∈ s.adapters := by
    cases model with
    | none => simp
    | some m => simp [NodeEntry.serves, NodeDoc.toEntry, NodeStatus.doc]
  rw [← hboth, ← hmodel]
  simp [NodeEntry.routable, NodeEntry.matchesRequest, NodeEntry.roleEnum, NodeDoc.toEntry,
    NodeStatus.doc, or_assoc, and_comm]

/-- The nodes a request may go to, when the watcher rests: the agents of the last tick that are
ready, do not drain, and have the role and the model. -/
theorem candidates_are_live_agents (fmt : RecordFormat) (ttl : Nat) (steps : List Step)
    (statuses : List NodeStatus) (hfmt : ∀ s ∈ statuses, fmt.Faithful s)
    (hrest : (Watcher.run fmt.fromStr ttl steps).todo = [])
    (hrecords : (Watcher.run fmt.fromStr ttl steps).records = statuses.map fmt.toString)
    (role : NodeRole) (model : Option String) (n : NodeEntry) :
    n ∈ (Watcher.run fmt.fromStr ttl steps).view.nodes.nodesFor role model ↔
      ∃ s, lastStatus fmt statuses n.nodeId = some s ∧ s.doc.toEntry = n ∧
        (s.ready = true ∧ s.draining = false) ∧
        (role = .unspecified ∨ NodeRole.ofInt (roleToInt s.role) = role ∨ s.role = .both) ∧
        ∀ m ∈ model, s.model = some m ∨ m ∈ s.adapters := by
  rw [NodeRegistry.mem_nodesFor, (holds_at_rest hrest hrecords).nodes,
    lastRecord_statuses hfmt, Option.map_map, Option.map_eq_some_iff]
  constructor
  · rintro ⟨⟨s, hs, rfl⟩, hpass⟩
    exact ⟨s, hs, rfl, (candidate_iff s role model).mp hpass⟩
  · rintro ⟨s, hs, rfl, hpass⟩
    exact ⟨⟨s, hs, rfl⟩, (candidate_iff s role model).mpr hpass⟩

theorem candidates_after_tick :
    (∀ s ∈ [limited, unlimited], twoRecords.Faithful s) ∧
      ∃ k, (afterTick k).todo = [] ∧
        limited.doc.toEntry ∈ (afterTick k).view.nodes.nodesFor .decode (some "x") := by
  obtain ⟨k, hrest, hrecords⟩ := afterTick_rests
  refine ⟨twoRecords_faithful, k, hrest, (candidates_are_live_agents twoRecords 60 _ _
    twoRecords_faithful hrest hrecords _ _ _).mpr ?_⟩
  exact ⟨limited, lastStatus_limited, rfl, ⟨rfl, rfl⟩, .inr (.inr rfl), by decide⟩

/-! ## Claims -/

section

variable (fromStr : String → Option NodeDoc)

/-- Why a step may drop the claim of a node. -/
inductive MayDrop (s : Watcher) (d : Digest) (n : String) : Step → Prop where
  /-- All its entries have expired. -/
  | expired
    (h : ∀ e ∈ s.world.index.entries d, e.nodeId = n →
      s.world.index.ttl ≤ s.world.clock - e.lastSeen) : MayDrop s d n .gc
  /-- A heartbeat of the node itself gives a reason. -/
  | heartbeat {entry : NodeDoc} {rest : List Action}
    (htodo : s.todo = .reconcile entry :: rest) (hid : entry.nodeId = n)
    (hreason : (s.view.cacheState.reason entry.toHeartbeat).isSome) : MayDrop s d n .act
  /-- No record of the tick names the node. -/
  | departed {rest : List Action} (htodo : s.todo = .forgetClaims n :: rest)
    (hgone : lastRecord fromStr s.records n = none) : MayDrop s d n .act

omit fromStr in
theorem hasClaim_step_of_keeps {w : PrefixIndex.World} {op : PrefixIndex.Op} {d : Digest}
    {n : String} (hop : ∀ digest nodeId, op ≠ .insert digest nodeId)
    (h : ∃ e ∈ w.index.entries d, e.nodeId = n ∧ op.keeps w d e = true) :
    (w.step op).index.HasClaim d n := by
  obtain ⟨e, he, hn, hkeep⟩ := h
  refine ⟨e, ?_, hn⟩
  rw [PrefixIndex.entries_step w hop]
  exact List.mem_filter.mpr ⟨he, hkeep⟩

omit fromStr in
theorem op_ne_insert (r : PruneReason) (ttl : Nat) (id : String) (digest : Digest)
    (nodeId : String) : r.op ttl id ≠ .insert digest nodeId := by
  cases r <;> simp [PruneReason.op]

/-- The heartbeat of one node keeps the claims of the others. -/
theorem hasClaim_prune {t : CacheStateTracker} {hb : Heartbeat} {w : PrefixIndex.World}
    {d : Digest} {n : String} (hclaim : w.index.HasClaim d n)
    (hne : hb.nodeId = n → (t.reason hb).isSome = false) :
    ((t.prune w.index.ttl hb).foldl PrefixIndex.World.step w).index.HasClaim d n := by
  unfold CacheStateTracker.prune
  cases hreason : t.reason hb with
  | none => exact hclaim
  | some r =>
    have hid : hb.nodeId ≠ n := fun heq => by simpa [hreason] using hne heq
    obtain ⟨e, he, rfl⟩ := hclaim
    show (w.step (r.op w.index.ttl hb.nodeId)).index.HasClaim d e.nodeId
    refine hasClaim_step_of_keeps (op_ne_insert r _ _) ⟨e, he, rfl, ?_⟩
    cases r <;> simp [PruneReason.op, PrefixIndex.Op.keeps, Ne.symm hid]

/-- The next action of the watcher. -/
theorem claim_act {s : Watcher} (hinv : s.Inv fromStr) {d : Digest} {n : String}
    (hclaim : s.world.index.HasClaim d n) :
    (s.step fromStr .act).world.index.HasClaim d n ∨ MayDrop fromStr s d n .act := by
  cases htodo : s.todo with
  | nil =>
    refine .inl ?_
    rw [Watcher.step, htodo]
    exact hclaim
  | cons a rest =>
    have hworld : (s.step fromStr .act).world =
        (a.ops s.view s.world.index.ttl).foldl PrefixIndex.World.step s.world := by
      rw [Watcher.step, htodo]
    rw [hworld]
    cases a with
    | reconcile entry =>
      by_cases hreason : entry.nodeId = n ∧
          (s.view.cacheState.reason entry.toHeartbeat).isSome = true
      · exact .inr (.heartbeat htodo hreason.1 hreason.2)
      · refine .inl (hasClaim_prune hclaim fun hid => ?_)
        exact Bool.eq_false_iff.mpr fun hsome => hreason ⟨hid, hsome⟩
    | forgetClaims id =>
      by_cases hid : id = n
      · subst hid
        have hgone := hinv.pending id (htodo ▸ List.mem_cons_self)
        rw [hinv.holds.nodes, Option.map_eq_none_iff] at hgone
        exact .inr (.departed htodo hgone)
      · obtain ⟨e, he, rfl⟩ := hclaim
        refine .inl ?_
        show (s.world.step (.forgetNode id)).index.HasClaim d e.nodeId
        exact hasClaim_step_of_keeps nofun ⟨e, he, rfl, bne_iff_ne.mpr (Ne.symm hid)⟩
    | _ => exact .inl hclaim

/-- No step of any run drops a claim of a node but for the reasons of `MayDrop`. -/
theorem claims_dropped_for_reason (ttl : Nat) (steps : List Step) :
    Lib.Along (Watcher.step fromStr)
      (fun s a => ∀ d n, s.world.index.HasClaim d n →
        (s.step fromStr a).world.index.HasClaim d n ∨ MayDrop fromStr s d n a)
      (Watcher.new ttl) steps := by
  refine Lib.Along.of_invariant (I := Watcher.Inv fromStr) (Q := fun _ _ => True) ?_
    (fun s a h _ => Watcher.inv_step fromStr h a) (Lib.along_of_forall (fun _ _ => trivial) _ _)
    (Watcher.inv_new fromStr ttl)
  intro s a hinv d n hclaim
  cases a with
  | act => exact claim_act fromStr hinv hclaim
  | tick records =>
    refine .inl ?_
    show (s.step fromStr (.tick records)).world.index.HasClaim d n
    rw [Watcher.step]
    split
    · exact hclaim
    · exact hclaim
  | pass _ => exact .inl hclaim
  | insert digest nodeId =>
    exact .inl ((PrefixIndex.hasClaim_insert _ _ digest d nodeId n).mpr (.inl hclaim))
  | gc =>
    by_cases hold : ∀ e ∈ s.world.index.entries d, e.nodeId = n →
        s.world.index.ttl ≤ s.world.clock - e.lastSeen
    · exact .inr (.expired hold)
    · push Not at hold
      obtain ⟨e, he, hn, hyoung⟩ := hold
      exact .inl (hasClaim_step_of_keeps nofun ⟨e, he, hn, decide_eq_true hyoung⟩)

end

end Cognitora.Router.Gossip
