/-
  Advertised blocks and what a peer gets (cgn-kvcached `src/grpc.rs`, `src/transport.rs`).

  `Lookup` and `BatchLookup` answer from RAM and the index. A `Pull` frame and the `Push` RPC
  read RAM only, and a daemon refuses a body of more than 16 MiB. `advertised_transfers_iff`:
  for a block that is reported present, both transfers carry the bytes `lookup_with_promote`
  returns exactly if RAM holds the block and it has at most 16 MiB.

  A stream is a frame and a body that arrive whole; the connection and the security policy are
  not modelled. A daemon that fails on a stream sends no reply. The parse of `target_endpoint`
  is an input: its error, or the peer that listens there.
-/
import Cognitora.Core.Error
import Cognitora.KvCached.Restart
import Mathlib.Algebra.Ring.Nat

namespace Cognitora.KvCached

open Cognitora.Lib Cognitora.Core

/-! ## Lookup RPCs -/

/-- `block_info::Tier`. -/
inductive ProtoTier where
  | unspecified
  | gpu
  | ram
  | ssd
  | remote
  deriving DecidableEq

structure BlockInfo where
  prefixHash : Bytes
  tier : ProtoTier
  sizeBytes : Nat
  ownerNode : String
  lastAccessUnixMs : Nat

/-- A gRPC status the handler itself raises. -/
inductive RpcStatus where
  | invalidArgument (message : String)

/-- The `Status` message of a reply. -/
structure PStatus where
  code : Nat
  message : String
  deriving DecidableEq

def digestFromBytes (b : Bytes) : Except RpcStatus Digest :=
  if h : b.length = 32 then .ok ⟨b.toArray, h⟩
  else .error (.invalidArgument "hash must be 32 bytes")

def tierToProto : TierKind → ProtoTier
  | .gpu => .gpu
  | .ram => .ram
  | .ssd => .ssd

/-- The reply for a block that was found. -/
def infoOf (digest : Digest) (handle : BlockHandle) : BlockInfo where
  prefixHash := digest.toList
  tier := tierToProto handle.info.tier
  sizeBytes := handle.info.bytes
  ownerNode := ""
  lastAccessUnixMs := handle.info.lastSeenUnix * 1000 % 2 ^ 64

/-- The reply for a block that was not. -/
def missInfo (digest : Digest) : BlockInfo where
  prefixHash := digest.toList
  tier := .unspecified
  sizeBytes := 0
  ownerNode := ""
  lastAccessUnixMs := 0

/-- The only layer the RPCs ask for. -/
def layerZero (digest : Digest) : BlockAddress :=
  ⟨digest, 0⟩

namespace Rpc

def lookup (s : Store) (now : Nat) (hash : Bytes) : Except RpcStatus BlockInfo × Store :=
  match digestFromBytes hash with
  | .error e => (.error e, s)
  | .ok digest =>
    match s.lookup now (layerZero digest) with
    | (some handle, s') => (.ok (infoOf digest handle), s')
    | (none, s') => (.ok (missInfo digest), s')

def batchLookup (s : Store) (now : Nat) : List Bytes → List BlockInfo × Store
  | [] => ([], s)
  | v :: values =>
    match digestFromBytes v with
    | .error _ => batchLookup s now values
    | .ok digest =>
      match s.lookup now (layerZero digest) with
      | (some handle, s') =>
        (infoOf digest handle :: (batchLookup s' now values).1, (batchLookup s' now values).2)
      | (none, s') => batchLookup s' now values

end Rpc

/-! ## Streams between daemons -/

/-- Maximum block size accepted on the wire. -/
def maxBlockBytes : Nat :=
  16 * 1024 * 1024

inductive FrameOp where
  | pull
  | push
  | ack
  deriving DecidableEq

structure Frame where
  op : FrameOp
  addr : BlockAddress
  bodyLen : Nat

/-- `read_exact` of `n` bytes. -/
def readExact (body : Bytes) (n : Nat) : Option Bytes :=
  if n ≤ body.length then some (body.take n) else none

/-- One stream of `handle_connection`: the frame and the body sent, the reply and the store. -/
def handleStream (s : Store) (now : Nat) (frame : Frame) (body : Bytes) :
    Except Error (Option (Frame × Bytes)) × Store :=
  match frame.op with
  | .pull =>
    let bytes := (s.ram.bytesAt frame.addr).getD []
    (.ok (some (⟨.push, frame.addr, bytes.length⟩, bytes)),
      { s with ram := s.ram.touch now frame.addr })
  | .push =>
    if frame.bodyLen > maxBlockBytes then
      (.error (.invalidArgument ("push body " ++ toString frame.bodyLen ++ " exceeds max " ++
        toString maxBlockBytes)), s)
    else
      match readExact body frame.bodyLen with
      | none => (.error (.internal "quic read body"), s)
      | some bytes =>
        (.ok (some (⟨.ack, frame.addr, 0⟩, [])), s.admitRam now frame.addr bytes "")
  | .ack => (.ok none, s)

/-- Ask `peer` for a block; an empty answer is a miss. -/
def peerPull (peer : Store) (now : Nat) (addr : BlockAddress) : Except Error Bytes × Store :=
  match handleStream peer now ⟨.pull, addr, 0⟩ [] with
  | (.ok (some (resp, body)), peer') =>
    if resp.bodyLen > maxBlockBytes then
      (.error (.invalidArgument ("peer pulled too much: " ++ toString resp.bodyLen ++ " bytes")),
        peer')
    else
      match readExact body resp.bodyLen with
      | none => (.error (.internal "read body"), peer')
      | some bytes => (.ok bytes, peer')
  | (_, peer') => (.error (.internal "read hdr"), peer')

/-- Push `bytes` into the named block on `peer`. -/
def peerPush (peer : Store) (now : Nat) (addr : BlockAddress) (bytes : Bytes) :
    Except Error Unit × Store :=
  match handleStream peer now ⟨.push, addr, bytes.length⟩ bytes with
  | (.ok (some _), peer') => (.ok (), peer')
  | (_, peer') => (.error (.internal "read hdr"), peer')

structure PushSpec where
  prefixHash : Bytes
  /-- What `target_endpoint` parses to: the message of the error, or the peer. -/
  target : Except String Store

/-- The reply, the store and the peer's store after the `Push` RPC. -/
def Rpc.push (s : Store) (now : Nat) (spec : PushSpec) :
    Except RpcStatus PStatus × Store × Option Store :=
  match digestFromBytes spec.prefixHash with
  | .error e => (.error e, s, none)
  | .ok digest =>
    match s.ram.bytesAt (layerZero digest) with
    | none => (.ok ⟨5, "block not resident"⟩, s, none)
    | some bytes =>
      let s' := { s with ram := s.ram.touch now (layerZero digest) }
      match spec.target with
      | .error e => (.ok ⟨3, "bad target_endpoint: " ++ e⟩, s', none)
      | .ok peer =>
        match peerPush peer now (layerZero digest) bytes with
        | (.ok (), peer') => (.ok ⟨0, "pushed"⟩, s', some peer')
        | (.error e, peer') => (.ok ⟨14, "push: " ++ e.text⟩, s', some peer')

/-! ## What is reported -/

/-- `Lookup` or some `BatchLookup` reports the layer-0 block of `d` present. -/
def Reported (s : Store) (now : Nat) (d : Digest) : Prop :=
  (∃ info, (Rpc.lookup s now d.toList).1 = .ok info ∧ info.tier ≠ .unspecified) ∨
    ∃ values, ∃ info ∈ (Rpc.batchLookup s now values).1, info.prefixHash = d.toList

theorem digestFromBytes_toList (d : Digest) : digestFromBytes d.toList = .ok d := by
  have hlen : d.toList.length = 32 := Vector.length_toList
  unfold digestFromBytes
  rw [dif_pos hlen]
  congr

/-- A lookup touches RAM only. -/
theorem isSome_lookup_lookup (s : Store) (now now' : Nat) (addr a : BlockAddress) :
    ((s.lookup now addr).2.lookup now' a).1.isSome = (s.lookup now' a).1.isSome := by
  rw [Store.isSome_lookup, Store.isSome_lookup]
  unfold Store.lookup
  split
  · dsimp only
    rw [RamTier.bytesAt_touch]
  · rfl

theorem isSome_of_mem_batchLookup {s : Store} {now : Nat} {values : List Bytes} {info : BlockInfo}
    (h : info ∈ (Rpc.batchLookup s now values).1) {d : Digest} (hd : info.prefixHash = d.toList) :
    (s.lookup now (layerZero d)).1.isSome = true := by
  induction values generalizing s with
  | nil => cases h
  | cons v values ih =>
    unfold Rpc.batchLookup at h
    split at h
    · exact ih h
    · next digest _ =>
      have hrest : info ∈ (Rpc.batchLookup (s.lookup now (layerZero digest)).2 now values).1 →
          (s.lookup now (layerZero d)).1.isSome = true := by
        intro hmem
        rw [← isSome_lookup_lookup s now now (layerZero digest)]
        exact ih hmem
      split at h
      · next handle s' hlookup =>
        rw [hlookup] at hrest
        rcases List.mem_cons.mp h with heq | hmem
        · rw [heq] at hd
          have hdigest : digest = d := Vector.toList_inj.mp hd
          rw [← hdigest, hlookup]
          rfl
        · exact hrest hmem
      · next s' hlookup =>
        rw [hlookup] at hrest
        exact hrest h

theorem Rpc.lookup_of_some {s : Store} {now : Nat} {d : Digest} {handle : BlockHandle}
    (h : (s.lookup now (layerZero d)).1 = some handle) :
    (Rpc.lookup s now d.toList).1 = .ok (infoOf d handle) := by
  unfold Rpc.lookup
  rw [digestFromBytes_toList]
  dsimp only
  split
  · next hlookup =>
    rw [hlookup] at h
    cases h
    rfl
  · next hlookup =>
    rw [hlookup] at h
    cases h

theorem Rpc.lookup_of_none {s : Store} {now : Nat} {d : Digest}
    (h : (s.lookup now (layerZero d)).1 = none) :
    (Rpc.lookup s now d.toList).1 = .ok (missInfo d) := by
  unfold Rpc.lookup
  rw [digestFromBytes_toList]
  dsimp only
  split
  · next hlookup =>
    rw [hlookup] at h
    cases h
  · rfl

theorem reported_iff (s : Store) (now : Nat) (d : Digest) :
    Reported s now d ↔ (s.lookup now (layerZero d)).1.isSome = true := by
  constructor
  · rintro (⟨info, hinfo, htier⟩ | ⟨values, info, hmem, hd⟩)
    · cases hfound : (s.lookup now (layerZero d)).1 with
      | some handle => rfl
      | none =>
        rw [Rpc.lookup_of_none hfound] at hinfo
        cases hinfo
        exact absurd rfl htier
    · exact isSome_of_mem_batchLookup hmem hd
  · intro hsome
    obtain ⟨handle, hhandle⟩ := Option.isSome_iff_exists.mp hsome
    refine Or.inl ⟨infoOf d handle, ?_, ?_⟩
    · exact Rpc.lookup_of_some hhandle
    · unfold infoOf tierToProto
      dsimp only
      split
      · simp
      · simp
      · simp

/-! ## What is transferred -/

/-- `lookup_with_promote` returns `b`, the files being readable. -/
def Returns (s : Store) (addr : BlockAddress) (b : Bytes) : Prop :=
  (∃ s', (Store.lookupWithPromote addr).Runs Store.AllOk s (some b) s') ∧
    ∀ r s', (Store.lookupWithPromote addr).Runs Store.AllOk s r s' → r = some b

/-- A peer's pull of the layer-0 block of `d` and a push of it to `peer` both carry what
    `lookup_with_promote` returns. -/
def Transfers (s : Store) (now : Nat) (d : Digest) (peer : Store) : Prop :=
  ∃ b, Returns s (layerZero d) b ∧ (peerPull s now (layerZero d)).1 = .ok b ∧
    ∃ s' peer', Rpc.push s now ⟨d.toList, .ok peer⟩ = (.ok ⟨0, "pushed"⟩, s', some peer') ∧
      peer'.ram.bytesAt (layerZero d) = some b

theorem readExact_self (b : Bytes) : readExact b b.length = some b := by
  unfold readExact
  rw [if_pos (Nat.le_refl _), List.take_length]

theorem returns_of_ram {s : Store} {addr : BlockAddress} {b : Bytes}
    (h : s.ram.bytesAt addr = some b) : Returns s addr b := by
  have hresult : (Store.lookupWithPromote addr).wp Store.AllOk (fun r _ => r = some b) s := by
    refine Store.wp_lookupWithPromote ?_ ?_ ?_
    · intro c hc _
      rw [← hc, h]
    · intro hnone
      rw [h] at hnone
      exact absurd hnone (by simp)
    · intro hnone
      rw [h] at hnone
      exact absurd hnone (by simp)
  obtain ⟨r, s', hrun⟩ :=
    Code.exists_runs (show Store.AllOk Store.okEnv from rfl) (Store.lookupWithPromote addr) s
  have hr := Code.Runs.of_wp hrun hresult
  rw [hr] at hrun
  refine ⟨⟨s', hrun⟩, fun r s' hrun => ?_⟩
  exact (Code.Runs.of_wp hrun hresult :)

theorem peerPull_of_ram {s : Store} {now : Nat} {addr : BlockAddress} {b : Bytes}
    (h : s.ram.bytesAt addr = some b) (hlen : b.length ≤ maxBlockBytes) :
    (peerPull s now addr).1 = .ok b := by
  unfold peerPull handleStream
  dsimp only
  rw [h]
  dsimp only [Option.getD_some]
  rw [if_neg (by omega), readExact_self]

theorem peerPush_of_le {peer : Store} {now : Nat} {addr : BlockAddress} {b : Bytes}
    (hlen : b.length ≤ maxBlockBytes) :
    peerPush peer now addr b = (.ok (), peer.admitRam now addr b "") := by
  unfold peerPush handleStream
  dsimp only
  rw [if_neg (by omega), readExact_self]

theorem peerPush_of_gt {peer : Store} {now : Nat} {addr : BlockAddress} {b : Bytes}
    (hlen : maxBlockBytes < b.length) :
    peerPush peer now addr b = (.error (.internal "read hdr"), peer) := by
  unfold peerPush handleStream
  dsimp only
  rw [if_pos hlen]

/-- The block that a successful push carries is in RAM and within the limit. -/
theorem ram_of_push {s s' : Store} {now : Nat} {d : Digest} {peer : Store} {peer' : Option Store}
    (h : Rpc.push s now ⟨d.toList, .ok peer⟩ = (.ok ⟨0, "pushed"⟩, s', peer')) :
    ∃ b, s.ram.bytesAt (layerZero d) = some b ∧ b.length ≤ maxBlockBytes := by
  unfold Rpc.push at h
  dsimp only at h
  rw [digestFromBytes_toList] at h
  dsimp only at h
  cases hram : s.ram.bytesAt (layerZero d) with
  | none =>
    rw [hram] at h
    simp at h
  | some b =>
    refine ⟨b, rfl, ?_⟩
    by_contra hlen
    rw [hram] at h
    dsimp only at h
    rw [peerPush_of_gt (by omega)] at h
    simp at h

theorem transfers_iff (s : Store) (now : Nat) (d : Digest) (peer : Store) :
    Transfers s now d peer ↔
      ∃ b, s.ram.bytesAt (layerZero d) = some b ∧ b.length ≤ maxBlockBytes := by
  constructor
  · rintro ⟨_, _, _, s', peer', hpush, _⟩
    exact ram_of_push hpush
  · rintro ⟨b, hram, hlen⟩
    refine ⟨b, returns_of_ram hram, peerPull_of_ram hram hlen, ?_⟩
    refine ⟨{ s with ram := s.ram.touch now (layerZero d) },
      peer.admitRam now (layerZero d) b "", ?_, ?_⟩
    · unfold Rpc.push
      dsimp only
      rw [digestFromBytes_toList]
      dsimp only
      rw [hram]
      dsimp only
      rw [peerPush_of_le hlen]
    · exact (RamTier.bytesAt_put peer.ram now _ _ b).trans (if_pos rfl)

/-- A block that is reported is transferred whole, by pull and by push, exactly if RAM holds
    it and it is within the limit on the wire. -/
theorem advertised_transfers_iff (s : Store) (now : Nat) (d : Digest) (peer : Store) :
    (Reported s now d → Transfers s now d peer) ↔
      (Reported s now d →
        ∃ b, s.ram.bytesAt (layerZero d) = some b ∧ b.length ≤ maxBlockBytes) := by
  rw [transfers_iff]

/-- One block, put and spilled. -/
def coldStore : Store :=
  (((Store.new 0).admitRam 0 (layerZero zeroDigest) [1] "").written (layerZero zeroDigest)
    [1]).spilled 0 (layerZero zeroDigest) [1] ""

/-- A block on SSD is reported and not transferred. -/
theorem cold_block_not_transferred :
    ¬ ∀ s now d peer, Reported s now d → Transfers s now d peer := by
  intro htransfers
  have hram : coldStore.ram.bytesAt (layerZero zeroDigest) = none :=
    (RamTier.bytesAt_evict _ (layerZero zeroDigest) _).trans (if_pos rfl)
  have hindex : (coldStore.index.lookup (layerZero zeroDigest)).isSome = true := by
    show (AList.lookup _ (AList.insert _ _ _)).isSome = true
    rw [AList.lookup_insert]
    rfl
  obtain ⟨_, _, _, _, _, hpush, _⟩ := htransfers coldStore 0 zeroDigest (Store.new 0) (by
    rw [reported_iff, Store.isSome_lookup, hindex, Bool.or_true])
  obtain ⟨b, hb, _⟩ := ram_of_push hpush
  rw [hram] at hb
  exact absurd hb (by simp)

end Cognitora.KvCached
