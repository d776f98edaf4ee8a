/-
  The cache epoch across its two processes (cgn-agent `src/health.rs`, `emit_with_lease`, and
  `src/kv_cache_state.rs`; cgn-router `src/cluster/cache_state.rs` and the nodes watcher of
  `src/cluster/watcher.rs`).

  `kv_epoch_purges`: in every run whose steps are `sheltered`, a heartbeat after a loss of the
  engine's cache leaves no claim of the node older than the heartbeat received before the loss,
  and the epochs an agent publishes never fall. A step is sheltered if an agent begins a new
  session only while its epoch is 0, an observation after a loss shows it (the engine's readiness
  changed, or the size of its pool, or many blocks are free) at an epoch below the maximum, and
  the first heartbeat of a node that a new watcher run meets comes without a loss since the last
  one received. Otherwise the protocol misses losses: a new session starts at epoch 0 with
  nothing to compare with, and so does a new tracker.

  `lost` counts the losses of an engine's cache; the agent does not see it. A heartbeat is an
  observation and the put that publishes it, which may fail. The watcher gets a snapshot,
  reconciles its records one by one, creates a watch and reconciles what it delivers.
  `observed`, `received` and the losses on a heartbeat are history variables.
-/
import Cognitora.Lib.Run
import Cognitora.Router.CacheState

namespace Cognitora.Router

open Cognitora.Core Cognitora.Agent Cognitora.Lib

/-! ## Stamps -/

/-- The epoch of a heartbeat, and the losses of the engine's cache before it. -/
structure Stamp where
  epoch : Nat
  losses : Nat

namespace Stamp

/-- The second stamp is not older, and a loss between the two has raised the epoch. -/
def Leads (a b : Stamp) : Prop :=
  a.epoch ≤ b.epoch ∧ a.losses ≤ b.losses ∧ (a.losses < b.losses → a.epoch < b.epoch)

theorem Leads.refl (a : Stamp) : a.Leads a :=
  ⟨Nat.le_refl _, Nat.le_refl _, fun h => absurd h (Nat.lt_irrefl _)⟩

theorem Leads.trans {a b c : Stamp} (hab : a.Leads b) (hbc : b.Leads c) : a.Leads c := by
  obtain ⟨he, hl, hs⟩ := hab
  obtain ⟨he', hl', hs'⟩ := hbc
  refine ⟨he.trans he', hl.trans hl', fun hlt => ?_⟩
  rcases Nat.lt_or_ge a.losses b.losses with h | h
  · exact (hs h).trans_le he'
  · exact he.trans_lt (hs' (by omega))

end Stamp

/-- The stamps stand in their order, none after `last`. -/
structure Behind (stamps : List Stamp) (last : Stamp) : Prop where
  ordered : stamps.Pairwise Stamp.Leads
  before : ∀ a ∈ stamps, a.Leads last

namespace Behind

variable {l m : List Stamp} {last next : Stamp}

theorem sublist (h : Behind l last) (hm : m.Sublist l) : Behind m last :=
  ⟨h.ordered.sublist hm, fun a ha => h.before a (hm.subset ha)⟩

theorem mono (h : Behind l last) (hnext : last.Leads next) : Behind l next :=
  ⟨h.ordered, fun a ha => (h.before a ha).trans hnext⟩

theorem snoc (h : Behind l last) (hnext : last.Leads next) : Behind (l ++ [next]) next := by
  refine ⟨List.pairwise_append.mpr ⟨h.ordered, List.pairwise_singleton _ _, ?_⟩, ?_⟩
  · intro a ha b hb
    rw [List.mem_singleton.mp hb]
    exact (h.before a ha).trans hnext
  · intro a ha
    rcases List.mem_append.mp ha with ha | ha
    · exact (h.before a ha).trans hnext
    · rw [List.mem_singleton.mp ha]
      exact Stamp.Leads.refl _

end Behind

/-! ## The system -/

/-- A heartbeat with the losses before it. -/
structure Beat where
  entry : Heartbeat
  losses : Nat

def Beat.stamp (b : Beat) : Stamp := ⟨b.entry.kvEpoch, b.losses⟩

/-- A write under the nodes prefix of etcd. -/
inductive NodeWrite where
  | put (b : Beat)
  | delete (nodeId : String)

/-- Where the current run of the nodes watcher stands. -/
inductive NodesWatch where
  | disconnected
  /-- Records of the snapshot that are not reconciled yet. -/
  | snapshot (pending : List Beat)
  /-- The next write the watch delivers. -/
  | watching (cursor : Nat)

structure EpochPlane where
  /-- The state of the agent's current session. -/
  agents : String → KvCacheState
  /-- How often the node's engine has lost its cache. -/
  lost : String → Nat
  /-- Epoch and losses at the agent's last observation. -/
  observed : String → Stamp
  log : List NodeWrite
  records : List Beat
  watch : NodesWatch
  tracker : CacheStateTracker
  router : PrefixIndex.World
  /-- The last heartbeat received since the last DELETE received. -/
  received : String → Option Stamp

namespace EpochPlane

def new (ttl : Nat) : EpochPlane where
  agents := fun _ => KvCacheState.fresh
  lost := fun _ => 0
  observed := fun _ => ⟨0, 0⟩
  log := []
  records := []
  watch := .disconnected
  tracker := ∅
  router := ⟨0, PrefixIndex.new ttl, []⟩
  received := fun _ => none

/-- What the watcher processes next. -/
def incoming (s : EpochPlane) : Option NodeWrite :=
  match s.watch with
  | .snapshot (b :: _) => some (.put b)
  | .watching cursor => s.log[cursor]?
  | _ => none

def nextWatch (s : EpochPlane) : NodesWatch :=
  match s.watch with
  | .disconnected => .disconnected
  | .snapshot [] => .watching s.log.length
  | .snapshot (_ :: pending) => .snapshot pending
  | .watching cursor => if cursor < s.log.length then .watching (cursor + 1) else .watching cursor

/-- The watcher reconciles a heartbeat. -/
def reconcile (s : EpochPlane) (b : Beat) : EpochPlane :=
  { s with
    router := (s.tracker.prune s.router.index.ttl b.entry).foldl PrefixIndex.World.step s.router
    tracker := s.tracker.record b.entry
    received := Function.update s.received b.entry.nodeId (some b.stamp) }

/-- The watcher handles the DELETE of a node. -/
def forget (s : EpochPlane) (nodeId : String) : EpochPlane :=
  { s with
    router := s.router.step (.forgetNode nodeId)
    tracker := s.tracker.forgetNode nodeId
    received := Function.update s.received nodeId none }

def receive (s : EpochPlane) : EpochPlane :=
  let next := { s with watch := s.nextWatch }
  match s.incoming with
  | none => next
  | some (.put b) => next.reconcile b
  | some (.delete nodeId) => next.forget nodeId

/-- The put of a node's record. -/
def publishOne (s : EpochPlane) (b : Beat) : EpochPlane :=
  { s with
    log := s.log ++ [.put b]
    records := s.records.filter (fun r => r.entry.nodeId != b.entry.nodeId) ++ [b] }

/-- The agent observes its engine. -/
def look (s : EpochPlane) (nodeId : String) (ready : Bool) (stats : EngineStats) : EpochPlane :=
  let agent := (s.agents nodeId).observe ready stats
  { s with
    agents := Function.update s.agents nodeId agent
    observed := Function.update s.observed nodeId ⟨agent.kvEpoch, s.lost nodeId⟩ }

/-- The heartbeat of the agent's last observation. -/
def beat (s : EpochPlane) (nodeId : String) (stats : EngineStats) : Beat where
  entry := ⟨nodeId, (s.agents nodeId).kvEpoch, stats.freeBlocks, stats.totalBlocks⟩
  losses := s.lost nodeId

/-- One round of the agent's loop; `landed` tells whether the put succeeded. -/
def observe (s : EpochPlane) (nodeId : String) (ready : Bool) (stats : EngineStats)
    (landed : Bool) : EpochPlane :=
  let s := s.look nodeId ready stats
  if landed then s.publishOne (s.beat nodeId stats) else s

inductive Event where
  /-- The engine restarts, or loses its cache in another way. -/
  | lose (nodeId : String)
  | observe (nodeId : String) (ready : Bool) (stats : EngineStats) (landed : Bool)
  /-- A new etcd session or a new process of the agent. -/
  | restart (nodeId : String)
  /-- The node's record goes, by its lease or by hand. -/
  | expire (nodeId : String)
  /-- A new run of the watcher: a fresh tracker, and a snapshot. -/
  | connect
  | receive
  | claim (digest : Digest) (nodeId : String)
  | unclaim (digest : Digest) (nodeId : String)
  | pass (d : Nat)
  | gc

def step (s : EpochPlane) : Event → EpochPlane
  | .lose nodeId => { s with lost := Function.update s.lost nodeId (s.lost nodeId + 1) }
  | .observe nodeId ready stats landed => s.observe nodeId ready stats landed
  | .restart nodeId =>
    { s with agents := Function.update s.agents nodeId KvCacheState.fresh }
  | .expire nodeId =>
    -- deleting a key that is not there commits no event
    if s.records.any fun r => r.entry.nodeId == nodeId then
      { s with
        log := s.log ++ [.delete nodeId]
        records := s.records.filter fun r => r.entry.nodeId != nodeId }
    else s
  | .connect => { s with watch := .snapshot s.records, tracker := ∅ }
  | .receive => s.receive
  | .claim digest nodeId => { s with router := s.router.step (.insert digest nodeId) }
  | .unclaim digest nodeId => { s with router := s.router.step (.forgetClaim digest nodeId) }
  | .pass d => { s with router := s.router.step (.pass d) }
  | .gc => { s with router := s.router.step .gc }

def run (ttl : Nat) (events : List Event) : EpochPlane :=
  events.foldl step (new ttl)

/-! ## What the protocol is to guarantee -/

def puts (log : List NodeWrite) : List Beat :=
  log.filterMap fun
    | .put b => some b
    | .delete _ => none

/-- The stamps of a node's heartbeats. -/
def stamps (nodeId : String) (beats : List Beat) : List Stamp :=
  (beats.filter fun b => b.entry.nodeId == nodeId).map Beat.stamp

/-- The epochs published for a node never fall. -/
def EpochsRise (s : EpochPlane) : Prop :=
  ∀ n, (stamps n (puts s.log)).Pairwise fun a b => a.epoch ≤ b.epoch

/-- The event is not the receipt of the node's DELETE. -/
def KeepsNode (nodeId : String) (s : EpochPlane) (e : Event) : Prop :=
  ∀ m, e = .receive → s.incoming = some (.delete m) → m ≠ nodeId

/-- Of two heartbeats of a node received without a DELETE of it in between, and with a loss
    between them, the later leaves only claims that were inserted after the earlier. -/
def Purges (ttl : Nat) (events : List Event) : Prop :=
  ∀ pre mid : List Event, pre ++ .receive :: (mid ++ [.receive]) <+: events →
    ∀ earlier later : Beat, (run ttl pre).incoming = some (.put earlier) →
      (run ttl (pre ++ .receive :: mid)).incoming = some (.put later) →
      later.entry.nodeId = earlier.entry.nodeId → earlier.losses < later.losses →
      Along step (KeepsNode earlier.entry.nodeId) (run ttl (pre ++ [.receive])) mid →
      ∀ d, (run ttl (pre ++ .receive :: (mid ++ [.receive]))).router.index.HasClaim d
          earlier.entry.nodeId →
        .claim d earlier.entry.nodeId ∈ mid

/-- The step does not hide a loss. -/
def sheltered (s : EpochPlane) : Event → Bool
  | .restart nodeId => (s.agents nodeId).kvEpoch == 0
  | .observe nodeId ready stats _ =>
    !decide ((s.observed nodeId).losses < s.lost nodeId) ||
      (decide ((s.agents nodeId).kvEpoch < KvCacheState.u64Max) &&
        (s.agents nodeId).notices ready stats)
  | .receive =>
    match s.incoming with
    | some (.put b) =>
      (s.tracker.lookup b.entry.nodeId).isSome ||
        (s.received b.entry.nodeId).all fun r => r.losses == b.losses
    | _ => true
  | _ => true

/-! ## The stamps on their way to the router -/

/-- Heartbeats on their way to the router. -/
def inFlight (s : EpochPlane) : List Beat :=
  match s.watch with
  | .disconnected => []
  | .snapshot pending => pending
  | .watching cursor => puts (s.log.drop cursor)

/-- The node's last heartbeat received, those on their way, and the one in etcd. -/
def queue (s : EpochPlane) (nodeId : String) : List Stamp :=
  (s.received nodeId).toList ++ (stamps nodeId s.inFlight ++ stamps nodeId s.records)

theorem stamps_append (n : String) (xs ys : List Beat) :
    stamps n (xs ++ ys) = stamps n xs ++ stamps n ys := by
  simp [stamps]

theorem stamps_singleton (n : String) (b : Beat) :
    stamps n [b] = if b.entry.nodeId = n then [b.stamp] else [] := by
  unfold stamps
  by_cases h : b.entry.nodeId = n <;> simp [h]

theorem stamps_filter (n m : String) (xs : List Beat) :
    stamps n (xs.filter fun r => r.entry.nodeId != m) = if n = m then [] else stamps n xs := by
  unfold stamps
  rw [List.filter_filter]
  split
  · next h =>
    subst h
    simp
  · next h =>
    have hkeep : ∀ b : Beat, (b.entry.nodeId == n && b.entry.nodeId != m) =
        (b.entry.nodeId == n) := by
      intro b
      by_cases hb : b.entry.nodeId = n
      · simp [hb, h]
      · simp [hb]
    simp only [hkeep]

theorem puts_append (xs ys : List NodeWrite) : puts (xs ++ ys) = puts xs ++ puts ys := by
  simp [puts]

/-- What a run of sheltered steps keeps. -/
structure Ordered (s : EpochPlane) : Prop where
  epoch : ∀ n, (s.observed n).epoch = (s.agents n).kvEpoch
  epoch_le : ∀ n, (s.agents n).kvEpoch ≤ KvCacheState.u64Max
  losses : ∀ n, (s.observed n).losses ≤ s.lost n
  cursor : ∀ c, s.watch = .watching c → c ≤ s.log.length
  one : ∀ n, (stamps n s.records).length ≤ 1
  logged : ∀ n, Behind (stamps n (puts s.log)) (s.observed n)
  queued : ∀ n, Behind (s.queue n) (s.observed n)
  tracked : ∀ n snap, s.tracker.lookup n = some snap →
    ∃ r, s.received n = some r ∧ r.epoch = snap.kvEpoch

variable {s : EpochPlane}

/-- An observation follows the last one, and tells of a loss. -/
theorem leads_observe (h : s.Ordered) (n : String) (ready : Bool) (stats : EngineStats)
    (landed : Bool) (hs : s.sheltered (.observe n ready stats landed) = true) :
    (s.observed n).Leads ⟨((s.agents n).observe ready stats).kvEpoch, s.lost n⟩ := by
  have hmono := (KvCacheState.observe_mono ready stats (h.epoch_le n)).1
  have hepoch := h.epoch n
  refine ⟨by dsimp only; omega, h.losses n, fun hlost => ?_⟩
  simp only [sheltered, hlost, decide_true, Bool.not_true, Bool.false_or, Bool.and_eq_true,
    decide_eq_true_eq] at hs
  exact hepoch ▸ KvCacheState.lt_observe hs.1 hs.2

/-- Receiving moves the watcher past the write it processes. -/
theorem inFlight_eq (s : EpochPlane) :
    s.inFlight = puts s.incoming.toList ++ { s with watch := s.nextWatch }.inFlight := by
  unfold inFlight incoming nextWatch
  cases s.watch with
  | disconnected => rfl
  | snapshot pending =>
    cases pending with
    | nil => simp [puts]
    | cons b pending => rfl
  | watching cursor =>
    dsimp only
    by_cases hc : cursor < s.log.length
    · rw [if_pos hc, List.getElem?_eq_getElem hc, List.drop_eq_getElem_cons hc, Option.toList_some,
        ← List.singleton_append, puts_append]
    · rw [if_neg hc, List.getElem?_eq_none (Nat.not_lt.mp hc)]
      rfl

theorem received_reconcile (s : EpochPlane) (b : Beat) :
    (s.reconcile b).received b.entry.nodeId = some b.stamp :=
  Function.update_self _ _ _

theorem queue_reconcile (s : EpochPlane) (b : Beat) (n : String) :
    (s.reconcile b).queue n =
      if n = b.entry.nodeId then b.stamp :: (stamps n s.inFlight ++ stamps n s.records)
      else s.queue n := by
  unfold queue reconcile
  split
  · next hn =>
    subst hn
    simp [inFlight]
  · next hn => simp [hn, inFlight]

/-- Receiving takes stamps out of the queue, and adds none. -/
theorem queue_receive_sublist (s : EpochPlane) (n : String) :
    (s.receive.queue n).Sublist (s.queue n) := by
  have hflight := inFlight_eq s
  unfold receive
  cases hin : s.incoming with
  | none =>
    rw [hin] at hflight
    have hsame : { s with watch := s.nextWatch }.queue n = s.queue n := by
      unfold queue
      rw [hflight]
      rfl
    exact hsame ▸ List.Sublist.refl _
  | some write =>
    rw [hin] at hflight
    cases write with
    | put b =>
      dsimp only
      rw [queue_reconcile]
      have hstamps : stamps n s.inFlight =
          stamps n [b] ++ stamps n { s with watch := s.nextWatch }.inFlight := by
        rw [hflight, stamps_append]
        rfl
      unfold queue
      rw [hstamps, stamps_singleton]
      split
      · next hn =>
        rw [if_pos hn.symm]
        exact List.sublist_append_right _ _
      · next hn =>
        rw [if_neg (Ne.symm hn)]
        exact List.Sublist.refl _
    | delete m =>
      dsimp only
      unfold queue
      rw [hflight]
      refine List.Sublist.append ?_ (List.Sublist.refl _)
      simp only [forget, Function.update_apply]
      split
      · exact List.nil_sublist _
      · exact List.Sublist.refl _

/-- The watch stays within the log. -/
theorem cursor_nextWatch (h : s.Ordered) {c : Nat} (hc : s.nextWatch = .watching c) :
    c ≤ s.log.length := by
  unfold nextWatch at hc
  split at hc
  · exact absurd hc (by simp)
  · exact (NodesWatch.watching.inj hc).ge
  · exact absurd hc (by simp)
  · next cursor hwatch =>
    split at hc
    · next hlt =>
      have := NodesWatch.watching.inj hc
      omega
    · exact (NodesWatch.watching.inj hc) ▸ h.cursor cursor hwatch

theorem ordered_receive (h : s.Ordered) : s.receive.Ordered := by
  have hsub := queue_receive_sublist s
  have hcursor := fun c => cursor_nextWatch h (c := c)
  unfold receive at hsub ⊢
  cases hin : s.incoming with
  | none =>
    simp only [hin] at hsub
    exact ⟨h.epoch, h.epoch_le, h.losses, hcursor, h.one, h.logged,
      fun n => (h.queued n).sublist (hsub n), h.tracked⟩
  | some write =>
    cases write with
    | put b =>
      simp only [hin] at hsub
      refine ⟨h.epoch, h.epoch_le, h.losses, hcursor, h.one, h.logged,
        fun n => (h.queued n).sublist (hsub n), fun n snap hsnap => ?_⟩
      simp only [reconcile, CacheStateTracker.record] at hsnap ⊢
      by_cases hn : n = b.entry.nodeId
      · subst hn
        rw [AList.lookup_insert] at hsnap
        exact ⟨b.stamp, Function.update_self _ _ _,
          congrArg Snapshot.kvEpoch (Option.some.inj hsnap)⟩
      · rw [AList.lookup_insert_ne hn] at hsnap
        rw [Function.update_of_ne hn]
        exact h.tracked n snap hsnap
    | delete m =>
      simp only [hin] at hsub
      refine ⟨h.epoch, h.epoch_le, h.losses, hcursor, h.one, h.logged,
        fun n => (h.queued n).sublist (hsub n), fun n snap hsnap => ?_⟩
      simp only [forget, CacheStateTracker.forgetNode] at hsnap ⊢
      by_cases hn : n = m
      · subst hn
        rw [AList.lookup_erase] at hsnap
        exact absurd hsnap (by simp)
      · rw [AList.lookup_erase_ne hn] at hsnap
        rw [Function.update_of_ne hn]
        exact h.tracked n snap hsnap

theorem inFlight_publishOne (h : s.Ordered) (b : Beat) :
    (s.publishOne b).inFlight = s.inFlight ∨ (s.publishOne b).inFlight = s.inFlight ++ [b] := by
  unfold publishOne inFlight
  cases hwatch : s.watch with
  | disconnected => exact .inl rfl
  | snapshot pending => exact .inl rfl
  | watching c =>
    refine .inr ?_
    dsimp only
    rw [List.drop_append_of_le_length (h.cursor c hwatch), puts_append]
    rfl

theorem stamps_records_publishOne (s : EpochPlane) (b : Beat) (n : String) :
    stamps n (s.publishOne b).records =
      if n = b.entry.nodeId then [b.stamp] else stamps n s.records := by
  unfold publishOne
  rw [stamps_append, stamps_filter, stamps_singleton]
  split
  · next hn => rw [if_pos hn.symm, List.nil_append]
  · next hn => rw [if_neg (Ne.symm hn), List.append_nil]

/-- A put joins the end of its node's queue, once for the watch and once for etcd. -/
theorem behind_queue_publishOne (h : s.Ordered) {b : Beat}
    (hb : s.observed b.entry.nodeId = b.stamp) :
    Behind ((s.publishOne b).queue b.entry.nodeId) b.stamp := by
  have hfront : Behind ((s.received b.entry.nodeId).toList ++ stamps b.entry.nodeId s.inFlight)
      b.stamp := by
    refine (hb ▸ h.queued b.entry.nodeId).sublist ?_
    unfold queue
    rw [← List.append_assoc]
    exact List.sublist_append_left _ _
  have hqueue : (s.publishOne b).queue b.entry.nodeId =
      (s.received b.entry.nodeId).toList ++ stamps b.entry.nodeId (s.publishOne b).inFlight ++
        [b.stamp] := by
    rw [queue, stamps_records_publishOne, if_pos rfl, ← List.append_assoc]
    rfl
  rw [hqueue]
  rcases inFlight_publishOne h b with hsame | hmore
  · rw [hsame]
    exact hfront.snoc (Stamp.Leads.refl _)
  · rw [hmore, stamps_append, stamps_singleton, if_pos rfl, ← List.append_assoc]
    exact (hfront.snoc (Stamp.Leads.refl _)).snoc (Stamp.Leads.refl _)

theorem queue_publishOne_of_ne (h : s.Ordered) (b : Beat) {n : String}
    (hn : n ≠ b.entry.nodeId) : (s.publishOne b).queue n = s.queue n := by
  have hflight : stamps n (s.publishOne b).inFlight = stamps n s.inFlight := by
    rcases inFlight_publishOne h b with hsame | hmore
    · rw [hsame]
    · rw [hmore, stamps_append, stamps_singleton, if_neg (Ne.symm hn), List.append_nil]
  rw [queue, hflight, stamps_records_publishOne, if_neg hn]
  rfl

theorem ordered_publishOne (h : s.Ordered) {b : Beat} (hb : s.observed b.entry.nodeId = b.stamp) :
    (s.publishOne b).Ordered where
  epoch := h.epoch
  epoch_le := h.epoch_le
  losses := h.losses
  cursor c hc := by
    have := h.cursor c hc
    simp only [publishOne, List.length_append, List.length_singleton]
    omega
  one n := by
    rw [stamps_records_publishOne]
    split
    · exact Nat.le_refl 1
    · exact h.one n
  logged n := by
    show Behind (stamps n (puts (s.log ++ [.put b]))) (s.observed n)
    rw [puts_append, stamps_append]
    show Behind (_ ++ stamps n [b]) _
    rw [stamps_singleton]
    split
    · next hn =>
      rw [← hn, hb]
      exact (hb ▸ h.logged b.entry.nodeId).snoc (Stamp.Leads.refl _)
    · rw [List.append_nil]
      exact h.logged n
  queued n := by
    by_cases hn : n = b.entry.nodeId
    · rw [hn]
      show Behind _ (s.observed b.entry.nodeId)
      rw [hb]
      exact behind_queue_publishOne h hb
    · rw [queue_publishOne_of_ne h b hn]
      exact h.queued n
  tracked := h.tracked

theorem ordered_look (h : s.Ordered) (n : String) (ready : Bool) (stats : EngineStats)
    (landed : Bool) (hs : s.sheltered (.observe n ready stats landed) = true) :
    (s.look n ready stats).Ordered := by
  have hleads := leads_observe h n ready stats landed hs
  have hmono := KvCacheState.observe_mono ready stats (h.epoch_le n)
  -- all that is said about another node is as it was
  have hother : ∀ m, m ≠ n → (s.look n ready stats).observed m = s.observed m ∧
      (s.look n ready stats).agents m = s.agents m :=
    fun m hm => ⟨Function.update_of_ne hm _ _, Function.update_of_ne hm _ _⟩
  have hself : (s.look n ready stats).observed n =
      ⟨((s.agents n).observe ready stats).kvEpoch, s.lost n⟩ := Function.update_self _ _ _
  have hagent : (s.look n ready stats).agents n = (s.agents n).observe ready stats :=
    Function.update_self _ _ _
  have hlast : ∀ m, (s.observed m).Leads ((s.look n ready stats).observed m) := by
    intro m
    by_cases hm : m = n
    · rw [hm, hself]
      exact hleads
    · rw [(hother m hm).1]
      exact Stamp.Leads.refl _
  refine ⟨fun m => ?_, fun m => ?_, fun m => ?_, h.cursor, h.one,
    fun m => (h.logged m).mono (hlast m), fun m => (h.queued m).mono (hlast m), h.tracked⟩
  · by_cases hm : m = n
    · rw [hm, hself, hagent]
    · rw [(hother m hm).1, (hother m hm).2, h.epoch m]
  · by_cases hm : m = n
    · rw [hm, hagent]
      exact hmono.2
    · rw [(hother m hm).2]
      exact h.epoch_le m
  · by_cases hm : m = n
    · rw [hm, hself]
      exact Nat.le_refl _
    · rw [(hother m hm).1]
      exact h.losses m

theorem ordered_observe (h : s.Ordered) (n : String) (ready : Bool) (stats : EngineStats)
    (landed : Bool) (hs : s.sheltered (.observe n ready stats landed) = true) :
    (s.observe n ready stats landed).Ordered := by
  have hlook := ordered_look h n ready stats landed hs
  unfold observe
  dsimp only
  split
  · refine ordered_publishOne hlook ?_
    show (s.look n ready stats).observed n = _
    simp [look, beat, Beat.stamp]
  · exact hlook

/-- A new run of the watcher has in flight what etcd holds, at most one record of a node. -/
theorem ordered_connect (h : s.Ordered) : (s.step .connect).Ordered := by
  refine ⟨h.epoch, h.epoch_le, h.losses, fun c hc => absurd hc (by simp [step]), h.one, h.logged,
    fun n => ?_, fun n snap hsnap => absurd hsnap (by simp [step])⟩
  have hold : Behind ((s.received n).toList ++ stamps n s.records) (s.observed n) := by
    refine (h.queued n).sublist ?_
    exact List.Sublist.append (List.Sublist.refl _) (List.sublist_append_right _ _)
  show Behind ((s.received n).toList ++ (stamps n s.records ++ stamps n s.records)) (s.observed n)
  have hone := h.one n
  rcases hrecord : stamps n s.records with _ | ⟨x, _ | ⟨y, rest⟩⟩
  · rw [hrecord] at hold
    exact hold
  · rw [hrecord] at hold
    have hx := hold.before x (List.mem_append_right _ List.mem_cons_self)
    have hfront : Behind ((s.received n).toList ++ [x]) x := by
      refine ⟨hold.ordered, fun a ha => ?_⟩
      rcases List.mem_append.mp ha with ha | ha
      · exact (List.pairwise_append.mp hold.ordered).2.2 a ha x List.mem_cons_self
      · rw [List.mem_singleton.mp ha]
        exact Stamp.Leads.refl _
    rw [← List.append_assoc]
    exact (hfront.snoc (Stamp.Leads.refl x)).mono hx
  · rw [hrecord] at hone
    simp at hone

theorem ordered_expire (h : s.Ordered) (m : String) : (s.step (.expire m)).Ordered := by
  unfold step
  dsimp only
  split
  · have hputs : puts (s.log ++ [.delete m]) = puts s.log := by
      rw [puts_append]
      exact List.append_nil _
    have hsub : ∀ n, (stamps n (s.records.filter fun r => r.entry.nodeId != m)).Sublist
        (stamps n s.records) := by
      intro n
      rw [stamps_filter]
      split
      · exact List.nil_sublist _
      · exact List.Sublist.refl _
    refine ⟨h.epoch, h.epoch_le, h.losses, fun c hc => ?_, fun n => ?_, fun n => ?_, fun n => ?_,
      h.tracked⟩
    · have := h.cursor c hc
      simp only [List.length_append, List.length_singleton]
      omega
    · exact (hsub n).length_le.trans (h.one n)
    · dsimp only
      rw [hputs]
      exact h.logged n
    · refine (h.queued n).sublist (List.Sublist.append (List.Sublist.refl _)
        (List.Sublist.append ?_ (hsub n)))
      unfold inFlight
      cases hwatch : s.watch with
      | disconnected => exact List.Sublist.refl _
      | snapshot pending => exact List.Sublist.refl _
      | watching c =>
        dsimp only
        rw [List.drop_append_of_le_length (h.cursor c hwatch), puts_append, stamps_append]
        exact (List.append_nil _).symm ▸ List.Sublist.refl _
  · exact h

/-- Steps that touch only the index. -/
theorem ordered_router (h : s.Ordered) (router : PrefixIndex.World) :
    { s with router := router }.Ordered :=
  ⟨h.epoch, h.epoch_le, h.losses, h.cursor, h.one, h.logged, h.queued, h.tracked⟩

theorem ordered_step (h : s.Ordered) (e : Event) (hs : s.sheltered e = true) :
    (s.step e).Ordered := by
  cases e with
  | lose n =>
    refine ⟨h.epoch, h.epoch_le, fun m => (h.losses m).trans ?_, h.cursor, h.one, h.logged,
      h.queued, h.tracked⟩
    show s.lost m ≤ Function.update s.lost n (s.lost n + 1) m
    by_cases hm : m = n
    · rw [hm, Function.update_self]
      exact Nat.le_succ _
    · rw [Function.update_of_ne hm]
  | observe n ready stats landed => exact ordered_observe h n ready stats landed hs
  | restart n =>
    have hzero : (s.agents n).kvEpoch = 0 := by simpa [sheltered] using hs
    have hsame : ∀ m, ((s.step (.restart n)).agents m).kvEpoch = (s.agents m).kvEpoch := by
      intro m
      show (Function.update s.agents n KvCacheState.fresh m).kvEpoch = _
      by_cases hm : m = n
      · rw [hm, Function.update_self, hzero]
        rfl
      · rw [Function.update_of_ne hm]
    exact ⟨fun m => (h.epoch m).trans (hsame m).symm, fun m => (hsame m).trans_le (h.epoch_le m),
      h.losses, h.cursor, h.one, h.logged, h.queued, h.tracked⟩
  | expire m => exact ordered_expire h m
  | connect => exact ordered_connect h
  | receive => exact ordered_receive h
  | claim d n => exact ordered_router h _
  | unclaim d n => exact ordered_router h _
  | pass d => exact ordered_router h _
  | gc => exact ordered_router h _

theorem ordered_new (ttl : Nat) : (new ttl).Ordered := by
  have hnil : ∀ last, Behind [] last :=
    fun _ => ⟨List.Pairwise.nil, fun _ ha => absurd ha (by simp)⟩
  exact ⟨fun _ => rfl, fun _ => Nat.zero_le _, fun _ => Nat.le_refl _,
    fun _ hc => absurd hc (by simp [new]), fun _ => Nat.zero_le _, fun _ => hnil _,
    fun _ => hnil _, fun _ _ hsnap => absurd hsnap (by simp [new])⟩

/-! ## Claims -/

/-- The last heartbeat received from the node follows `first`, and after a loss since `first`
    the node's claims are all made by events of `since`. -/
def PurgedSince (n : String) (first : Stamp) (since : List Event) (s : EpochPlane) : Prop :=
  ∃ r, s.received n = some r ∧ first.Leads r ∧
    (first.losses < r.losses → ∀ d, s.router.index.HasClaim d n → .claim d n ∈ since)

theorem hasClaim_of_prune {tracker : CacheStateTracker} {ttl : Nat} {entry : Heartbeat}
    {w : PrefixIndex.World} {d : Digest} {n : String}
    (h : ((tracker.prune ttl entry).foldl PrefixIndex.World.step w).index.HasClaim d n) :
    w.index.HasClaim d n := by
  refine PrefixIndex.hasClaim_of_foldl (fun op hop hinsert => ?_) h
  rcases CacheStateTracker.forgets_of_mem_prune hop with hforget | ⟨_, hstale⟩
  · exact absurd (hinsert.symm.trans hforget) (by simp)
  · exact absurd (hinsert.symm.trans hstale) (by simp)

/-- The next heartbeat of a node follows the last one received. -/
theorem leads_incoming (h : s.Ordered) {b : Beat} (hin : s.incoming = some (.put b)) {r : Stamp}
    (hr : s.received b.entry.nodeId = some r) : r.Leads b.stamp := by
  have hordered := (h.queued b.entry.nodeId).ordered
  have hflight : s.inFlight = b :: { s with watch := s.nextWatch }.inFlight := by
    rw [inFlight_eq s, hin]
    rfl
  unfold queue at hordered
  rw [hr, hflight, ← List.singleton_append, stamps_append, stamps_singleton, if_pos rfl] at hordered
  exact List.rel_of_pairwise_cons hordered (by simp)

theorem purgedSince_put (h : s.Ordered) {b : Beat} (hin : s.incoming = some (.put b))
    (hs : s.sheltered .receive = true) {first : Stamp} {since : List Event}
    (hp : PurgedSince b.entry.nodeId first since s) :
    PurgedSince b.entry.nodeId first since s.receive := by
  obtain ⟨r, hr, hfirst, hclaims⟩ := hp
  have hleads := leads_incoming h hin hr
  have hreceive : s.receive = { s with watch := s.nextWatch }.reconcile b := by
    rw [receive, hin]
  refine ⟨b.stamp, hreceive ▸ received_reconcile _ _, hfirst.trans hleads, fun hlost d hd => ?_⟩
  rw [hreceive] at hd
  by_cases hsince : r.losses < b.stamp.losses
  · -- a loss since the last heartbeat received: its epoch is known, and the new one is higher
    simp only [sheltered, hin, hr, Option.all_some, Bool.or_eq_true, beq_iff_eq] at hs
    rcases hs with hprev | hsame
    · obtain ⟨snap, hsnap⟩ := Option.isSome_iff_exists.mp hprev
      obtain ⟨r', hr', hepoch⟩ := h.tracked _ _ hsnap
      obtain rfl : r = r' := Option.some.inj (hr.symm.trans hr')
      have hne : b.entry.kvEpoch ≠ snap.kvEpoch := by
        have hlt : r.epoch < b.entry.kvEpoch := hleads.2.2 hsince
        omega
      simp only [reconcile, CacheStateTracker.prune_of_epoch_ne _ hsnap hne, List.foldl_cons,
        List.foldl_nil] at hd
      exact absurd hd (PrefixIndex.not_hasClaim_forgetNode _ _ _)
    · exact absurd hsame (Nat.ne_of_lt hsince)
  · have hle := hleads.2.1
    exact hclaims (by omega) d (hasClaim_of_prune hd)

theorem purgedSince_receive (h : s.Ordered) (hs : s.sheltered .receive = true) {n : String}
    (hkeeps : s.KeepsNode n .receive) {first : Stamp} {since : List Event}
    (hp : PurgedSince n first since s) : PurgedSince n first since s.receive := by
  cases hin : s.incoming with
  | none =>
    have hreceive : s.receive = { s with watch := s.nextWatch } := by rw [receive, hin]
    rw [hreceive]
    exact hp
  | some write =>
    obtain ⟨r, hr, hfirst, hclaims⟩ := id hp
    cases write with
    | put b =>
      by_cases hn : n = b.entry.nodeId
      · subst hn
        exact purgedSince_put h hin hs hp
      · have hreceive : s.receive = { s with watch := s.nextWatch }.reconcile b := by
          rw [receive, hin]
        rw [hreceive]
        exact ⟨r, (Function.update_of_ne hn _ _).trans hr, hfirst,
          fun hlost d hd => hclaims hlost d (hasClaim_of_prune hd)⟩
    | delete m =>
      have hn : n ≠ m := (hkeeps m rfl hin).symm
      have hreceive : s.receive = { s with watch := s.nextWatch }.forget m := by
        rw [receive, hin]
      rw [hreceive]
      exact ⟨r, (Function.update_of_ne hn _ _).trans hr, hfirst, fun hlost d hd =>
        hclaims hlost d ((PrefixIndex.hasClaim_of_step hd).resolve_right (by simp))⟩

theorem received_step {e : Event} (he : e ≠ .receive) : (s.step e).received = s.received := by
  cases e with
  | receive => exact absurd rfl he
  | observe n ready stats landed =>
    simp only [step, observe]
    split <;> rfl
  | expire n =>
    simp only [step]
    split <;> rfl
  | _ => rfl

theorem hasClaim_step {e : Event} (he : e ≠ .receive) {d : Digest} {n : String}
    (h : (s.step e).router.index.HasClaim d n) :
    s.router.index.HasClaim d n ∨ e = .claim d n := by
  cases e with
  | receive => exact absurd rfl he
  | observe m ready stats landed =>
    simp only [step, observe] at h
    split at h <;> exact .inl h
  | expire m =>
    simp only [step] at h
    split at h <;> exact .inl h
  | claim digest m =>
    refine (PrefixIndex.hasClaim_of_step h).imp_right fun hop => ?_
    obtain ⟨rfl, rfl⟩ := PrefixIndex.Op.insert.inj hop
    rfl
  | unclaim digest m => exact .inl ((PrefixIndex.hasClaim_of_step h).resolve_right (by simp))
  | pass t => exact .inl ((PrefixIndex.hasClaim_of_step h).resolve_right (by simp))
  | gc => exact .inl ((PrefixIndex.hasClaim_of_step h).resolve_right (by simp))
  | lose m => exact .inl h
  | restart m => exact .inl h
  | connect => exact .inl h

theorem purgedSince_step (h : s.Ordered) {e : Event} (hs : s.sheltered e = true) {n : String}
    (hkeeps : s.KeepsNode n e) {first : Stamp} {since : List Event}
    (hp : PurgedSince n first since s) : PurgedSince n first (since ++ [e]) (s.step e) := by
  by_cases he : e = .receive
  · subst he
    obtain ⟨r, hr, hfirst, hclaims⟩ := purgedSince_receive h hs hkeeps hp
    exact ⟨r, hr, hfirst, fun hlost d hd => List.mem_append_left _ (hclaims hlost d hd)⟩
  · obtain ⟨r, hr, hfirst, hclaims⟩ := hp
    refine ⟨r, (congrFun (received_step he) n).trans hr, hfirst, fun hlost d hd => ?_⟩
    rcases hasClaim_step he hd with hold | rfl
    · exact List.mem_append_left _ (hclaims hlost d hold)
    · exact List.mem_append_right _ List.mem_cons_self

theorem purgedSince_run {n : String} {first : Stamp} (events : List Event) {since : List Event}
    {s : EpochPlane} (h : s.Ordered)
    (hs : Along step (fun s e => s.sheltered e = true) s events)
    (hkeeps : Along step (KeepsNode n) s events) (hp : PurgedSince n first since s) :
    PurgedSince n first (since ++ events) (events.foldl step s) := by
  induction events generalizing s since with
  | nil => simpa using hp
  | cons e events ih =>
    have hstep := ih (ordered_step h e hs.1) hs.2 hkeeps.2 (purgedSince_step h hs.1 hkeeps.1 hp)
    rwa [List.append_assoc, List.singleton_append] at hstep

theorem ordered_run {ttl : Nat} {events pre : List Event}
    (h : Along step (fun s e => s.sheltered e = true) (new ttl) events) (hpre : pre <+: events) :
    (run ttl pre).Ordered :=
  h.invariant (fun _ e hordered hs => ordered_step hordered e hs) (ordered_new ttl) hpre

theorem purges_of_sheltered {ttl : Nat} {events : List Event}
    (h : Along step (fun s e => s.sheltered e = true) (new ttl) events) : Purges ttl events := by
  intro pre mid hpre earlier later hearlier hlater hnode hlost hkeeps d hd
  -- split the run at the two receipts
  obtain ⟨rest, rfl⟩ := hpre
  rw [List.append_assoc, List.cons_append, along_append] at h
  obtain ⟨hbefore, hfrom⟩ := h
  obtain ⟨_, hafter⟩ := hfrom
  rw [along_append] at hafter
  have hordered : (run ttl pre).Ordered := ordered_run hbefore List.prefix_rfl
  have hrun : run ttl (pre ++ [.receive]) = (run ttl pre).receive := by
    simp [run, step]
  have hlast : run ttl (pre ++ .receive :: mid) = mid.foldl step (run ttl pre).receive := by
    simp [run, step]
  have hend : run ttl (pre ++ .receive :: (mid ++ [.receive])) =
      (mid ++ [Event.receive]).foldl step (run ttl pre).receive := by
    simp [run, step]
  have hstart : PurgedSince earlier.entry.nodeId earlier.stamp [] (run ttl pre).receive := by
    refine ⟨earlier.stamp, ?_, Stamp.Leads.refl _, fun habs => absurd habs (Nat.lt_irrefl _)⟩
    rw [receive, hearlier]
    exact received_reconcile _ _
  have hkeepsAll : Along step (KeepsNode earlier.entry.nodeId) (run ttl pre).receive
      (mid ++ [.receive]) := by
    rw [along_append, ← hlast]
    refine ⟨hrun ▸ hkeeps, fun m _ hdelete => ?_, trivial⟩
    rw [hlater] at hdelete
    exact absurd hdelete (by simp)
  obtain ⟨r, hr, _, hclaims⟩ :=
    purgedSince_run _ (ordered_receive hordered) hafter.1 hkeepsAll hstart
  -- the last heartbeat received is the later one
  have hreceived : r = later.stamp := by
    rw [List.foldl_append, ← hlast] at hr
    simp only [List.foldl_cons, List.foldl_nil, step, receive, hlater] at hr
    rw [← hnode, received_reconcile] at hr
    exact (Option.some.inj hr).symm
  rw [hend] at hd
  have hmem := hclaims (hreceived ▸ hlost) d hd
  simpa using hmem

/-- In every run of sheltered steps, a heartbeat after a loss leaves only claims inserted after
    the heartbeat before the loss, and published epochs never fall. -/
theorem kv_epoch_purges (ttl : Nat) (events : List Event)
    (h : Along step (fun s e => s.sheltered e = true) (new ttl) events) :
    Purges ttl events ∧ (run ttl events).EpochsRise := by
  refine ⟨purges_of_sheltered h, fun n => ?_⟩
  have hlogged := (ordered_run h List.prefix_rfl).logged n
  exact hlogged.ordered.imp fun hleads => hleads.1

/-- A heartbeat, then a restart of the engine that the agent sees: the engine is not ready. -/
def seenLoss : List Event :=
  [.claim (Vector.replicate 32 7) "n1", .observe "n1" true ⟨0, 0, 0⟩ true, .connect, .receive,
    .receive, .lose "n1", .observe "n1" false ⟨0, 0, 0⟩ true, .receive]

theorem kv_epoch_purges_seenLoss :
    Along step (fun s e => s.sheltered e = true) (new 60) seenLoss ∧
      Purges 60 seenLoss ∧ (run 60 seenLoss).EpochsRise := by
  have hsheltered : Along step (fun s e => s.sheltered e = true) (new 60) seenLoss := by
    decide +kernel
  exact ⟨hsheltered, kv_epoch_purges 60 seenLoss hsheltered⟩

/-- What happens between two heartbeats of epoch 0: the engine restarts, and so does the
    agent's session. -/
def betweenBeats : List Event :=
  [.receive, .lose "n1", .restart "n1", .observe "n1" true ⟨0, 0, 0⟩ true]

theorem restart_hides_loss :
    ¬ Purges 60 ([.claim (Vector.replicate 32 7) "n1", .observe "n1" true ⟨0, 0, 0⟩ true,
      .connect] ++ .receive :: (betweenBeats ++ [.receive])) := by
  intro h
  have hmem := h _ betweenBeats List.prefix_rfl ⟨⟨"n1", 0, 0, 0⟩, 0⟩ ⟨⟨"n1", 0, 0, 0⟩, 1⟩ rfl rfl
    rfl (by decide) ?_ (Vector.replicate 32 7) ?_
  · revert hmem
    simp [betweenBeats]
  · refine ⟨fun m _ hin => ?_, fun m habs => ?_, fun m habs => ?_, fun m habs => ?_, trivial⟩
    · -- the watcher is about to create its watch
      exact absurd hin (by rw [show incoming _ = none from rfl]; simp)
    all_goals exact absurd habs (by simp)
  · unfold PrefixIndex.HasClaim
    decide +kernel

end EpochPlane

end Cognitora.Router
