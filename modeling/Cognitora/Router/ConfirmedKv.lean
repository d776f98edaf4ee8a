/-
  Confirmed-KV keys and the prefix index (cgn-router `src/cluster/watcher.rs`, the confirmed-KV
  watcher; `src/state.rs`, the gc task; cgn-agent `src/health.rs`, `publish_kv_confirmed`).

  The agent puts a key once and skips it while it is published; the router inserts a claim when
  a watcher meets the key, and a claim lives for the TTL. `confirmed_mirrored_iff`: at the end
  of a run the index has every confirmed key that a watcher has met, exactly if each of these
  claims was inserted less than the TTL ago. Nothing refreshes the claim of a key that stays in
  etcd but a new watcher's snapshot or a request routed to the node.

  Keys are lists of characters. A watcher task gets a snapshot of the keys, inserts them one by
  one, creates a watch without a start revision and applies its events in order; tasks of
  earlier runs of `run_etcd_watcher` go on. etcd may delete any key at any time (an expired
  lease). `claims` and `seen` are history variables: no step reads them.
-/
import Cognitora.Agent.Confirmed
import Cognitora.Core.PrefixSpec
import Cognitora.Router.CacheState

namespace Cognitora.Router

open Cognitora.Core Cognitora.Agent
open Cognitora.Auth (Text isHexDigit hexValue byteOfHex digestOfBytes)
open Cognitora.Lib (encodeHex)

/-! ## The key of a claim -/

/-- `u8::from_str_radix(chunk, 16)` on two characters; a leading `+` is allowed. -/
def radixByte (high low : Char) : Option UInt8 :=
  if high = '+' then
    if isHexDigit low then some (UInt8.ofNat (hexValue low)) else none
  else (byteOfHex high low).toOption

def radixBytes : Text → Option (List UInt8)
  | high :: low :: rest =>
    match radixByte high low, radixBytes rest with
    | some byte, some bytes => some (byte :: bytes)
    | _, _ => none
  | _ => some []

/-- `str::rsplit_once`. -/
def rsplitOnce (c : Char) (text : Text) : Option (Text × Text) :=
  let back := text.reverse
  match back.dropWhile (· ≠ c) with
  | [] => none
  | _ :: front => some (front.reverse, (back.takeWhile (· ≠ c)).reverse)

def parseKvConfirmedKey (key : Text) : Option (String × Digest) :=
  if kvConfirmedPath.isPrefixOf key then
    match rsplitOnce '/' (key.drop kvConfirmedPath.length) with
    | none => none
    | some (nodeId, hex) =>
      if nodeId.isEmpty || hex.length ≠ 64 then none
      else (radixBytes hex).map fun bytes => (String.ofList nodeId, digestOfBytes bytes)
  else none

theorem rsplitOnce_append (c : Char) (front : Text) {back : Text} (hback : ∀ x ∈ back, x ≠ c) :
    rsplitOnce c (front ++ c :: back) = some (front, back) := by
  have hrev : (front ++ c :: back).reverse = back.reverse ++ c :: front.reverse := by simp
  have hall : ∀ x ∈ back.reverse, decide (x ≠ c) = true := by simpa using hback
  unfold rsplitOnce
  dsimp only
  rw [hrev, List.dropWhile_append_of_pos hall, List.takeWhile_append_of_pos hall]
  simp

theorem digitChar_ne_plus : ∀ n : Fin 16, Nat.digitChar n ≠ '+' := by
  decide

theorem radixBytes_encodeHex (bytes : List UInt8) : radixBytes (encodeHex bytes) = some bytes := by
  induction bytes with
  | nil => rfl
  | cons b bytes ih =>
    have hplus : Nat.digitChar (b.toNat / 16) ≠ '+' :=
      digitChar_ne_plus ⟨b.toNat / 16, by have := b.toNat_lt; omega⟩
    show radixBytes (_ :: _ :: encodeHex bytes) = _
    rw [radixBytes, ih, radixByte, if_neg hplus, Cognitora.Auth.byteOfHex_digitChar]
    rfl

/-- The watcher reads back what the agent wrote, unless the node id is empty. -/
theorem parse_confirmedKey {nodeId : String} (hne : nodeId ≠ "") (d : Digest) :
    parseKvConfirmedKey (confirmedKey nodeId d.toList) = some (nodeId, d) := by
  have hkey : confirmedKey nodeId d.toList =
      kvConfirmedPath ++ (nodeId.toList ++ '/' :: encodeHex d.toList) := by
    rw [confirmedKey, List.append_assoc]
  have hslash : ∀ c ∈ encodeHex d.toList, c ≠ '/' :=
    Cognitora.Lib.forall_mem_encodeHex (by decide) _
  have hlength : (encodeHex d.toList).length = 64 := by
    rw [Cognitora.Lib.length_encodeHex, Vector.length_toList]
  have hid : nodeId.toList.isEmpty = false := by
    simpa [List.isEmpty_iff] using hne
  rw [parseKvConfirmedKey, hkey, if_pos (by simp), List.drop_left,
    rsplitOnce_append '/' _ hslash]
  simp [hid, hlength, radixBytes_encodeHex, Cognitora.Auth.digestOfBytes_toList]

/-! ## Agents, etcd and the router -/

/-- A task of the confirmed-KV watcher: keys of its snapshot it has not inserted yet, and its
    place in etcd's writes once it has a watch. -/
structure KvWatcher where
  snap : List Text
  cursor : Option Nat

structure KvPlane where
  /-- `kv_confirmed` of each agent. -/
  queued : String → List (List UInt8)
  /-- What each agent's lease session has published. -/
  published : String → List Text
  etcd : Etcd
  watchers : List KvWatcher
  tracker : CacheStateTracker
  router : PrefixIndex.World
  /-- When each claim was last inserted, if it was not forgotten since. -/
  claims : PrefixIndex.Claims
  /-- A watcher has met the key of the claim, and the claim was not dropped since. -/
  seen : Digest → String → Bool

namespace KvPlane

def new (ttl : Nat) : KvPlane where
  queued := fun _ => []
  published := fun _ => []
  etcd := ⟨[], []⟩
  watchers := []
  tracker := ∅
  router := ⟨0, PrefixIndex.new ttl, []⟩
  claims := PrefixIndex.Claims.none
  seen := fun _ _ => false

/-- An operation on the router's index. -/
def apply (s : KvPlane) (op : PrefixIndex.Op) : KvPlane :=
  { s with
    router := s.router.step op
    claims := s.claims.step s.router.clock op
    seen := fun d n => s.seen d n && !op.drops d n }

/-- A watcher inserts the claim of a key. -/
def mirrorPut (s : KvPlane) (key : Text) : KvPlane :=
  let s := match parseKvConfirmedKey key with
    | none => s
    | some (nodeId, digest) => s.apply (.insert digest nodeId)
  { s with seen := fun d n => s.seen d n || key == confirmedKey n d.toList }

def mirrorDelete (s : KvPlane) (key : Text) : KvPlane :=
  match parseKvConfirmedKey key with
  | none => s
  | some (nodeId, digest) => s.apply (.forgetClaim digest nodeId)

def mirror (s : KvPlane) : KeyWrite → KvPlane
  | .put key => s.mirrorPut key
  | .delete key => s.mirrorDelete key

/-- The next step of watcher number `i`. -/
def watcherStep (s : KvPlane) (i : Nat) : KvPlane :=
  match s.watchers[i]? with
  | none => s
  | some ⟨key :: snap, cursor⟩ =>
    { s with watchers := s.watchers.set i ⟨snap, cursor⟩ }.mirrorPut key
  | some ⟨[], none⟩ =>
    { s with watchers := s.watchers.set i ⟨[], some s.etcd.writes.length⟩ }
  | some ⟨[], some cursor⟩ =>
    match s.etcd.writes[cursor]? with
    | none => s
    | some write => { s with watchers := s.watchers.set i ⟨[], some (cursor + 1)⟩ }.mirror write

/-- A call of `publish_kv_confirmed` on the node. -/
def publish (s : KvPlane) (nodeId : String) (c : Call) : KvPlane :=
  let session : Session :=
    { kvConfirmed := s.queued nodeId
      published := s.published nodeId
      etcd := s.etcd
      queued := [] }
  let after := (session.publishKvConfirmed nodeId c).2
  { s with
    queued := Function.update s.queued nodeId after.kvConfirmed
    published := Function.update s.published nodeId after.published
    etcd := after.etcd }

inductive Event where
  /-- A generation on the node has finished. -/
  | confirm (nodeId : String) (digests : List (List UInt8))
  | publish (nodeId : String) (c : Call)
  /-- The agent begins a new lease session. -/
  | session (nodeId : String)
  /-- A lease expires, or a key is deleted by hand. -/
  | expire (key : Text)
  /-- A watcher task starts; `got` tells whether its `get` succeeded. -/
  | connect (got : Bool)
  | watcherStep (i : Nat)
  | heartbeat (entry : Heartbeat)
  | nodeDelete (nodeId : String)
  /-- `run_etcd_watcher` starts again with an empty tracker. -/
  | reconnect
  /-- A request is routed to the node. -/
  | dispatch (digest : Digest) (nodeId : String)
  | pass (d : Nat)
  | gc

def step (s : KvPlane) : Event → KvPlane
  | .confirm nodeId digests =>
    { s with queued := Function.update s.queued nodeId (s.queued nodeId ++ digests) }
  | .publish nodeId c => s.publish nodeId c
  | .session nodeId => { s with published := Function.update s.published nodeId [] }
  | .expire key => if key ∈ s.etcd.keys then { s with etcd := s.etcd.delete key } else s
  | .connect got =>
    { s with watchers := s.watchers ++ [⟨if got then s.etcd.keys else [], none⟩] }
  | .watcherStep i => s.watcherStep i
  | .heartbeat entry =>
    { (s.tracker.prune s.router.index.ttl entry).foldl apply s with
      tracker := s.tracker.record entry }
  | .nodeDelete nodeId =>
    { s.apply (.forgetNode nodeId) with tracker := s.tracker.forgetNode nodeId }
  | .reconnect => { s with tracker := ∅ }
  | .dispatch digest nodeId => s.apply (.insert digest nodeId)
  | .pass d => s.apply (.pass d)
  | .gc => s.apply .gc

def run (ttl : Nat) (events : List Event) : KvPlane :=
  events.foldl step (new ttl)

/-- etcd holds the confirmed key, a watcher has met it, and the claim was not dropped since. -/
def Confirmed (s : KvPlane) (d : Digest) (n : String) : Prop :=
  confirmedKey n d.toList ∈ s.etcd.keys ∧ s.seen d n = true

def Mirrored (s : KvPlane) : Prop :=
  ∀ d n, s.Confirmed d n → n ∈ s.router.index.lookup s.router.clock d

/-! ## Runs -/

/-- What every step keeps. -/
structure Sound (ttl : Nat) (s : KvPlane) : Prop where
  refines : PrefixIndex.Refines s.router s.claims
  ttl_eq : s.router.index.ttl = ttl
  claimed : ∀ d n, n ≠ "" → s.seen d n = true → (s.claims d n).isSome

variable {ttl : Nat} {s : KvPlane}

theorem Sound.apply (h : s.Sound ttl) (op : PrefixIndex.Op) : (s.apply op).Sound ttl where
  refines := h.refines.step op
  ttl_eq := (PrefixIndex.ttl_step _ _).trans h.ttl_eq
  claimed d n hn hseen := by
    obtain ⟨hseen, hop⟩ : s.seen d n = true ∧ op.drops d n = false := by
      simpa [KvPlane.apply] using hseen
    exact PrefixIndex.Claims.isSome_step (h.claimed d n hn hseen) _ hop

theorem Sound.mirrorPut (h : s.Sound ttl) (key : Text) : (s.mirrorPut key).Sound ttl := by
  unfold KvPlane.mirrorPut
  cases hparse : parseKvConfirmedKey key with
  | none =>
    refine ⟨h.refines, h.ttl_eq, fun d n hn hseen => ?_⟩
    rcases Bool.or_eq_true_iff.mp hseen with hold | hkey
    · exact h.claimed d n hn hold
    · rw [beq_iff_eq.mp hkey, parse_confirmedKey hn] at hparse
      exact absurd hparse (by simp)
  | some claim =>
    obtain ⟨nodeId, digest⟩ := claim
    have happly := h.apply (.insert digest nodeId)
    refine ⟨happly.refines, happly.ttl_eq, fun d n hn hseen => ?_⟩
    rcases Bool.or_eq_true_iff.mp hseen with hold | hkey
    · exact happly.claimed d n hn hold
    · rw [beq_iff_eq.mp hkey, parse_confirmedKey hn] at hparse
      obtain ⟨rfl, rfl⟩ := Prod.mk.inj (Option.some.inj hparse)
      simp [KvPlane.apply, PrefixIndex.Claims.step]

theorem Sound.mirror (h : s.Sound ttl) (write : KeyWrite) : (s.mirror write).Sound ttl := by
  cases write with
  | put key => exact h.mirrorPut key
  | delete key =>
    show (s.mirrorDelete key).Sound ttl
    unfold mirrorDelete
    split
    · exact h
    · exact h.apply _

theorem Sound.watcherStep (h : s.Sound ttl) (i : Nat) : (s.watcherStep i).Sound ttl := by
  have hset : ∀ watchers, { s with watchers := watchers }.Sound ttl :=
    fun _ => ⟨h.refines, h.ttl_eq, h.claimed⟩
  unfold KvPlane.watcherStep
  split
  · exact h
  · exact (hset _).mirrorPut _
  · exact hset _
  · split
    · exact h
    · exact (hset _).mirror _

theorem Sound.step (h : s.Sound ttl) (e : Event) : (s.step e).Sound ttl := by
  cases e with
  | confirm nodeId digests => exact ⟨h.refines, h.ttl_eq, h.claimed⟩
  | publish nodeId c => exact ⟨h.refines, h.ttl_eq, h.claimed⟩
  | session nodeId => exact ⟨h.refines, h.ttl_eq, h.claimed⟩
  | expire key =>
    unfold KvPlane.step
    dsimp only
    split
    · exact ⟨h.refines, h.ttl_eq, h.claimed⟩
    · exact h
  | connect got => exact ⟨h.refines, h.ttl_eq, h.claimed⟩
  | watcherStep i => exact h.watcherStep i
  | heartbeat entry =>
    have hprune : ((s.tracker.prune s.router.index.ttl entry).foldl KvPlane.apply s).Sound ttl :=
      List.foldlRecOn _ KvPlane.apply h fun _ h op _ => h.apply op
    exact ⟨hprune.refines, hprune.ttl_eq, hprune.claimed⟩
  | nodeDelete nodeId =>
    have hforget := h.apply (.forgetNode nodeId)
    exact ⟨hforget.refines, hforget.ttl_eq, hforget.claimed⟩
  | reconnect => exact ⟨h.refines, h.ttl_eq, h.claimed⟩
  | dispatch digest nodeId => exact h.apply _
  | pass d => exact h.apply _
  | gc => exact h.apply _

theorem sound_run (ttl : Nat) (events : List Event) : (run ttl events).Sound ttl :=
  List.foldlRecOn events KvPlane.step
    ⟨PrefixIndex.refines_new 0 ttl, rfl, fun _ _ _ hseen => absurd hseen (by simp [new])⟩
    fun _ h e _ => h.step e

/-- The index has every confirmed key that a watcher has met exactly if each of the claims was
    inserted less than the TTL ago. -/
theorem confirmed_mirrored_iff (ttl : Nat) (events : List Event) :
    (run ttl events).Mirrored ↔
      ∀ d n, (run ttl events).Confirmed d n →
        ∃ time, (run ttl events).claims d n = some time ∧
          (run ttl events).router.clock - time < ttl := by
  have h := sound_run ttl events
  unfold Mirrored
  refine forall_congr' fun d => forall_congr' fun n => imp_congr_right fun _ => ?_
  rw [h.refines.mem_lookup_iff_claims, h.ttl_eq]

/-- For a node with an id, the age of its claim decides. -/
theorem mem_lookup_of_confirmed (events : List Event) {d : Digest} {n : String} (hn : n ≠ "")
    (hconfirmed : (run ttl events).Confirmed d n) :
    ∃ time, (run ttl events).claims d n = some time ∧
      (n ∈ (run ttl events).router.index.lookup (run ttl events).router.clock d ↔
        (run ttl events).router.clock - time < ttl) := by
  have h := sound_run ttl events
  obtain ⟨time, htime⟩ := Option.isSome_iff_exists.mp (h.claimed d n hn hconfirmed.2)
  refine ⟨time, htime, ?_⟩
  rw [h.refines.mem_lookup_iff_claims, h.ttl_eq, htime]
  simp

/-- The TTL passes while the agent confirms the digest again and again. -/
def silentRun : List Event :=
  let d : List UInt8 := List.replicate 32 7
  let quiet : Call := ⟨⟨0, 0, 0⟩, [], fun _ => none, fun _ => none⟩
  [.confirm "n1" [d], .publish "n1" quiet, .connect true, .watcherStep 0, .watcherStep 0,
    .pass 30, .confirm "n1" [d], .publish "n1" quiet, .watcherStep 0,
    .heartbeat ⟨"n1", 0, 0, 0⟩, .pass 30, .gc]

theorem confirmed_key_expires : ¬ (run 60 silentRun).Mirrored := by
  intro h
  have hmem := h (Vector.replicate 32 7) "n1" ⟨by decide +kernel, by decide +kernel⟩
  revert hmem
  decide +kernel

end KvPlane

end Cognitora.Router
